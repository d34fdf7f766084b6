import HotRegion.Proofs.Flow.Frontier
import HotRegion.Proofs.Region.Overlap
import HotRegion.Compile.Prepared

/-!
# Patching likely branches and pruning

Patching gives every likely branch a block of its own for the delay slot, and pruning leaves the
blocks that can be reached from the entry. `Patched` is what holds from then on; it is what the code
generator relies on.

## Key results

- `patchLikely_spec`: a likely branch can be patched, and `PatchedAt` is what that does
- `exists_patchAll`: what one branch after another keeps holds once all are patched
- `Patched.patchAll`: every likely branch has its patch block as a successor
- `Patched.prune`: every block that is left can be reached
-/

namespace HotRegion.Region

open Isa
open Machine (wordAddr)

variable {r r' : Region} {s t p x y : Slot} {a b c : Block} {addr : UInt32}
  {K : UInt32 × UInt32 → Prop}

/-- The block ends in a likely branch with the delay slot `w`. -/
structure Block.Likely (a : Block) (tr : Transfer) (taken notTaken w : UInt32) : Prop where
  transfer : a.transfer = some tr
  control : tr.control = .branch taken notTaken true
  delay : a.words.getLast? = some w

/-- `b` is the patch block of the likely branch that ends `a`. -/
structure Block.PatchOf (a b : Block) (tr : Transfer) (taken notTaken w : UInt32) : Prop
    extends a.Likely tr taken notTaken w where
  entry : b.entry = tr.addr + 4
  words : b.words = [w]
  target : b.patchTarget = some taken

/-- A region of guest blocks and patch blocks, with edges along their code. -/
structure Patched (K : UInt32 × UInt32 → Prop) (r : Region) : Prop where
  linked : Linked r
  entry : r.bare? entrySlot = some Block.entryBlock
  first : ∀ t ∈ r.succs entrySlot, r.firstBlock? = some t
  entered : ∃ t, t ∈ r.succs entrySlot
  no_back : ∀ s, entrySlot ∉ r.succs s
  block : ∀ s b, s ≠ entrySlot → r.bare? s = some b →
    b.Guest K ∨ ∃ (a : Block) (tr : Transfer) (taken notTaken w : UInt32),
      a.Guest K ∧ a.PatchOf b tr taken notTaken w
  edge : ∀ s t a b, s ≠ entrySlot → t ∈ r.succs s → r.bare? s = some a → r.bare? t = some b →
    b.patchTarget = none ∧ b.entry ∈ a.staticTargets ∨
      a.Guest K ∧ ∃ tr taken notTaken w, a.PatchOf b tr taken notTaken w
  no_phis : ∀ s b, r.bare? s = some b → b.phis = []

/-- A traced region is patched as far as it goes. -/
theorem Traced.patched (h : Traced K r) (hentered : ∃ t, t ∈ r.succs entrySlot) : Patched K r where
  linked := h.linked
  entry := h.entry
  first := h.first
  entered := hentered
  no_back := h.no_back
  block s b hs hb := .inl (h.guest s b hs hb)
  edge s t a b hs hst ha hb := by
    have ht : t ≠ entrySlot := by
      rintro rfl
      exact h.no_back s hst
    exact .inl ⟨(h.guest t b ht hb).not_patch, h.edge s t a b hs hst ha hb⟩
  no_phis := h.no_phis

namespace Patched

/-- The list by addresses does not have the synthetic entry. -/
theorem blockAt?_ne_entry (h : Patched K r) (hs : r.blockAt? addr = some s) : s ≠ entrySlot := by
  obtain ⟨b, hb, hguest, _⟩ := h.linked.addr_guest addr s hs
  rintro rfl
  rw [h.entry] at hb
  cases hb
  cases hguest

end Patched

/-! ## Patching -/

/-- Hands the edge from `s` to the target of its branch over to the patch block in `p`. -/
def moveTaken (r : Region) (s p : Slot) (succs : List Slot) (taken notTaken : UInt32) :
    Except GraphError Region :=
  match r.blockAt? taken with
  | some t =>
    if t ∈ succs then
      if taken = notTaken then r.addEdge p t else r.removeEdge s t >>= fun r => r.addEdge p t
    else .ok r
  | none => .ok r

/-- The patch block of a likely branch takes the place of the target among its successors. -/
theorem patchLikely_eq {tr : Transfer} {taken notTaken w : UInt32} (hs : r.block? s = some a)
    (hp : a.Likely tr taken notTaken w) :
    r.patchLikely s =
      let (r, p) := r.insertBlock (Block.patch w (tr.addr + 4) taken)
      moveTaken r s p a.succs taken notTaken >>= fun r => do return (← r.addEdge s p, p) := by
  have htr := hp.transfer
  obtain ⟨index, at', insn, control⟩ := tr
  have hcontrol : control = .branch taken notTaken true := hp.control
  subst hcontrol
  unfold patchLikely moveTaken
  rw [block_eq_ok hs]
  simp only [bind, Except.bind, htr, hp.delay, List.contains_iff_mem]
  cases hat : (r.insertBlock (Block.patch w (at' + 4) taken)).1.blockAt? taken with
  | none => rfl
  | some t =>
    by_cases hst : t ∈ a.succs
    · by_cases heq : taken = notTaken
      · simp only [if_pos hst, if_pos heq]
        rfl
      · simp only [if_pos hst, if_neg heq]
        cases (r.insertBlock (Block.patch w (at' + 4) taken)).1.removeEdge s t <;> rfl
    · simp only [if_neg hst]
      rfl

/-- The edge to the target of the branch is handed over, if there is one. -/
theorem moveTaken_spec (taken notTaken : UInt32) (h : Linked r) (hs : r.block? s = some a)
    (hp : r.block? p = some b) :
    ∃ r', moveTaken r s p a.succs taken notTaken = .ok r' ∧ Linked r' ∧ SameBlocks r r' ∧
      ∀ x y, y ∈ r'.succs x ↔
        y ∈ r.succs x ∧ ¬ (x = s ∧ r.blockAt? taken = some y ∧ taken ≠ notTaken) ∨
        x = p ∧ r.blockAt? taken = some y ∧ y ∈ r.succs s := by
  unfold moveTaken
  rw [← succs_of_block hs]
  cases hat : r.blockAt? taken with
  | none => exact ⟨r, rfl, h, .refl _, fun x y => by simp⟩
  | some t =>
    by_cases hst : t ∈ r.succs s
    · simp only [hst, if_true]
      by_cases heq : taken = notTaken
      · obtain ⟨r', hok, h', hsame, hmem⟩ := addEdge_spec h hp (h.live s t hst)
        rw [if_pos heq]
        refine ⟨r', hok, h', hsame, fun x y => ?_⟩
        rw [hmem]
        grind
      · obtain ⟨r₁, hok₁, h₁, hsame₁, hmem₁⟩ := removeEdge_spec h hst
        obtain ⟨b₁, hb₁⟩ := hsame₁.live.2 ⟨_, hp⟩
        obtain ⟨r', hok, h', hsame, hmem⟩ := addEdge_spec h₁ hb₁ (hsame₁.live.2 (h.live s t hst))
        rw [if_neg heq, hok₁]
        refine ⟨r', hok, h', hsame₁.trans hsame, fun x y => ?_⟩
        rw [hmem, hmem₁]
        grind
    · simp only [hst, if_false]
      refine ⟨r, rfl, h, .refl _, fun x y => ?_⟩
      grind

/-- The likely branch that ends the block `a` in slot `s` of `r` has its patch block in slot `p` of
`r'`, and nothing else changes. -/
structure PatchedAt (r r' : Region) (s p : Slot) (a : Block) (tr : Transfer)
    (taken notTaken w : UInt32) : Prop where
  linked : Linked r
  relinked : Linked r'
  branch : a.Likely tr taken notTaken w
  source : r.bare? s = some a
  free : r.bare? p = none
  patch : r'.bare? p = some (Block.patch w (tr.addr + 4) taken)
  other : ∀ x, x ≠ p → r'.bare? x = r.bare? x
  edges : ∀ x y, y ∈ r'.succs x ↔
    y ∈ r.succs x ∧ ¬ (x = s ∧ r.blockAt? taken = some y ∧ taken ≠ notTaken) ∨
      x = p ∧ r.blockAt? taken = some y ∧ y ∈ r.succs s ∨ x = s ∧ y = p
  at_eq : ∀ addr, r'.blockAt? addr = r.blockAt? addr
  entryAddr : r'.entryAddr = r.entryAddr

section

variable {tr : Transfer} {taken notTaken w : UInt32}

/-- A likely branch can be patched. -/
theorem patchLikely_spec (h : Linked r) (hs : r.bare? s = some a)
    (hp : a.Likely tr taken notTaken w) :
    ∃ r' p, r.patchLikely s = .ok (r', p) ∧ PatchedAt r r' s p a tr taken notTaken w := by
  obtain ⟨a, ha, rfl⟩ := exists_block_of_bare? hs
  have hlikely : a.Likely tr taken notTaken w := ⟨hp.transfer, hp.control, hp.delay⟩
  obtain ⟨r₁, p, hok₁, h₁, hnone, hb₁, hother₁, hsuccs₁, hat₁, hentry₁⟩ :=
    insertBlock_spec h (b := Block.patch w (tr.addr + 4) taken) ⟨rfl, rfl⟩
  -- A patch block is not found by an address.
  have hat₁ : ∀ x, r₁.blockAt? x = r.blockAt? x := by
    intro x
    rw [hat₁]
    exact if_neg fun hguest => by cases hguest.1
  have hsp : s ≠ p := by
    rintro rfl
    rw [ha] at hnone
    cases hnone
  have ha₁ : r₁.block? s = some a := (hother₁ s hsp).trans ha
  obtain ⟨r₂, hok₂, h₂, hsame₂, hmem₂⟩ :=
    moveTaken_spec taken notTaken h₁ ha₁ hb₁
  obtain ⟨a₂, ha₂⟩ := hsame₂.live.2 ⟨_, ha₁⟩
  obtain ⟨r', hok, h', hsame', hmem⟩ := addEdge_spec h₂ ha₂ (hsame₂.live.2 ⟨_, hb₁⟩)
  have hsame := hsame₂.trans hsame'
  refine ⟨r', p, ?_, {
    linked := h, relinked := h', branch := hp, source := hs, free := by simp [bare?, hnone]
    patch := ?patch, other := fun x hx => ?other, edges := fun x y => ?edges
    at_eq := fun x => by rw [hsame.blockAt?, hat₁]
    entryAddr := by rw [hsame.entryAddr, hentry₁] }⟩
  · rw [patchLikely_eq ha hlikely, hok₁]
    change (moveTaken r₁ s p a.succs taken notTaken >>= fun r => _) = _
    rw [hok₂]
    change (r₂.addEdge s p >>= fun r => _) = _
    rw [hok]
    rfl
  case patch =>
    rw [hsame.bare, bare?_of_block hb₁]
    rfl
  case other =>
    rw [hsame.bare]
    simp [bare?, hother₁ x hx]
  case edges =>
    rw [hmem, hmem₂]
    simp only [hsuccs₁, hat₁]
    grind

/-- A block without a transfer of control has no patch block. -/
theorem Block.PatchOf.transfer_eq_none (h : a.PatchOf b tr taken notTaken w) :
    b.transfer = none := by
  simp [transfer, length, h.words]

/-- A patch block goes on at the target of its branch. -/
theorem Block.PatchOf.staticTargets (h : a.PatchOf b tr taken notTaken w) :
    b.staticTargets = [taken] := by
  simp [Block.staticTargets, h.transfer_eq_none, fallthrough, endsInTransfer, h.target]

/-- The block that patching makes. -/
theorem Block.Likely.patchOf (h : a.Likely tr taken notTaken w) :
    a.PatchOf (Block.patch w (tr.addr + 4) taken) tr taken notTaken w :=
  ⟨h, rfl, rfl, rfl⟩

namespace PatchedAt

/-- The slot of the patch block was empty before. -/
theorem ne_of_bare (h : PatchedAt r r' s p a tr taken notTaken w) (hx : r.bare? x = some b) :
    x ≠ p := by
  rintro rfl
  rw [h.free] at hx
  cases hx

/-- The patch block is not the branch itself. -/
theorem source_ne (h : PatchedAt r r' s p a tr taken notTaken w) : s ≠ p := h.ne_of_bare h.source

/-- The synthetic entry is no branch. -/
theorem source_ne_entry (h : PatchedAt r r' s p a tr taken notTaken w)
    (hentry : r.bare? entrySlot = some Block.entryBlock) : s ≠ entrySlot := by
  rintro rfl
  have hsource := h.source
  rw [hentry, Option.some.injEq] at hsource
  have hdelay := h.branch.delay
  rw [← hsource] at hdelay
  cases hdelay

/-- The other blocks were there before, but for their edges. -/
theorem bare_of_ne (h : PatchedAt r r' s p a tr taken notTaken w) (hx : x ≠ p)
    (hb : r'.bare? x = some b) : r.bare? x = some b :=
  h.other x hx ▸ hb

/-- No block is lost. -/
theorem bare_of_bare (h : PatchedAt r r' s p a tr taken notTaken w) (hb : r.bare? x = some b) :
    r'.bare? x = some b :=
  (h.other x (h.ne_of_bare hb)).trans hb

/-- The other blocks keep their successors. -/
theorem succs_other (h : PatchedAt r r' s p a tr taken notTaken w) (hxs : x ≠ s) (hxp : x ≠ p) :
    y ∈ r'.succs x ↔ y ∈ r.succs x := by
  rw [h.edges]
  simp [hxs, hxp]

/-- The branch goes to its patch block. -/
theorem succ_patch (h : PatchedAt r r' s p a tr taken notTaken w) : p ∈ r'.succs s :=
  (h.edges s p).2 (.inr (.inr ⟨rfl, rfl⟩))

end PatchedAt

/-- A likely branch of a patched region ends a guest block. -/
theorem Patched.guest_of_likely (h : Patched K r) (hs0 : s ≠ entrySlot) (hs : r.bare? s = some a)
    (hlikely : a.endsInLikely = true) : a.Guest K := by
  obtain hguest | ⟨b, tr, taken, notTaken, w, -, hof⟩ := h.block s a hs0 hs
  · exact hguest
  · simp [Block.endsInLikely, hof.transfer_eq_none] at hlikely

/-- Patching a likely branch keeps the region patched. -/
theorem Patched.patchedAt (h : Patched K r) (hpatch : PatchedAt r r' s p a tr taken notTaken w) :
    Patched K r' := by
  have hs0 := hpatch.source_ne_entry h.entry
  have hp0 : entrySlot ≠ p := hpatch.ne_of_bare h.entry
  have hguest : a.Guest K := h.guest_of_likely hs0 hpatch.source
    (Block.endsInLikely_iff.2 ⟨tr, taken, notTaken, hpatch.branch.transfer, hpatch.branch.control⟩)
  refine ⟨hpatch.relinked, hpatch.bare_of_bare h.entry, fun y hy => ?first, ?entered,
    fun x hx => ?no_back, fun x c hx hc => ?block, fun x y c d hx hxy hc hd => ?edge,
    fun x c hc => ?no_phis⟩
  case first =>
    unfold firstBlock?
    rw [hpatch.at_eq, hpatch.entryAddr]
    exact h.first y ((hpatch.succs_other hs0.symm hp0).1 hy)
  case entered =>
    obtain ⟨f, hf⟩ := h.entered
    exact ⟨f, (hpatch.succs_other hs0.symm hp0).2 hf⟩
  case no_back =>
    rcases (hpatch.edges _ _).1 hx with ⟨hx, _⟩ | ⟨_, _, hx⟩ | ⟨_, hx⟩
    · exact h.no_back _ hx
    · exact h.no_back _ hx
    · exact hp0 hx
  case block =>
    by_cases hxp : x = p
    · rw [hxp, hpatch.patch, Option.some.injEq] at hc
      subst hc
      exact .inr ⟨a, tr, taken, notTaken, w, hguest, hpatch.branch.patchOf⟩
    · exact h.block x c hx (hpatch.bare_of_ne hxp hc)
  case edge =>
    rcases (hpatch.edges x y).1 hxy with ⟨hxy, _⟩ | ⟨rfl, hat, _⟩ | ⟨rfl, rfl⟩
    · obtain ⟨hxp, hyp⟩ := h.linked.ne_of_free hpatch.free hxy
      exact h.edge x y c d hx hxy (hpatch.bare_of_ne hxp hc) (hpatch.bare_of_ne hyp hd)
    · -- The patch block goes to the target of the branch, which is a block of the guest.
      obtain ⟨d', hd', hdguest, hde⟩ := h.linked.addr_guest _ _ hat
      rw [hpatch.bare_of_bare hd', Option.some.injEq] at hd
      rw [hpatch.patch, Option.some.injEq] at hc
      subst hd
      left
      refine ⟨?_, ?_⟩
      · simpa [Block.isGuest, Block.isPatch] using (Bool.and_eq_true_iff.1 hdguest).1
      · rw [← hc, hpatch.branch.patchOf.staticTargets, hde]
        exact List.mem_singleton_self _
    · rw [hpatch.bare_of_bare hpatch.source, Option.some.injEq] at hc
      rw [hpatch.patch, Option.some.injEq] at hd
      subst hc hd
      exact .inr ⟨hguest, tr, taken, notTaken, w, hpatch.branch.patchOf⟩
  case no_phis =>
    by_cases hxp : x = p
    · rw [hxp, hpatch.patch, Option.some.injEq] at hc
      rw [← hc]
      rfl
    · exact h.no_phis x c (hpatch.bare_of_ne hxp hc)

end

/-- A guest block that ends in a likely branch has a delay slot. -/
theorem exists_likely (hguest : a.Guest K) (hlikely : a.endsInLikely = true) :
    ∃ tr taken notTaken w, a.Likely tr taken notTaken w := by
  obtain ⟨tr, taken, notTaken, htr, hcontrol⟩ := Block.endsInLikely_iff.1 hlikely
  cases hlast : a.words.getLast? with
  | none => exact absurd (List.getLast?_eq_none_iff.1 hlast) hguest.shaped.ne_nil
  | some w => exact ⟨tr, taken, notTaken, w, htr, hcontrol, hlast⟩

/-- Every likely branch of a guest block is patched. -/
def AllPatched (r : Region) : Prop :=
  ∀ s a, s ≠ entrySlot → r.bare? s = some a → a.patchTarget = none → a.endsInLikely = true →
    ∃ p b tr taken notTaken w, p ∈ r.succs s ∧ r.bare? p = some b ∧ a.PatchOf b tr taken notTaken w

/-- The slots of the blocks to patch. -/
def likelySlots (r : Region) : List Slot :=
  (r.blocks.filter fun p => !p.2.isPatch && p.2.endsInLikely).map (·.1)

/-- The slots to patch are those of likely branches, but for patch blocks. -/
theorem mem_likelySlots : s ∈ r.likelySlots ↔ ∃ b, r.bare? s = some b ∧ b.patchTarget = none ∧
    b.endsInLikely = true := by
  simp only [likelySlots, List.mem_map, List.mem_filter, Prod.exists, mem_blocks, Bool.and_eq_true,
    Bool.not_eq_true', Block.isPatch, Option.isSome_eq_false_iff, Option.isNone_iff_eq_none]
  constructor
  · rintro ⟨s', b, ⟨hb, hb'⟩, rfl⟩
    exact ⟨b.bare, bare?_of_block hb, hb'⟩
  · rintro ⟨b, hb, hb'⟩
    obtain ⟨c, hc, rfl⟩ := exists_block_of_bare? hb
    exact ⟨s, c, ⟨hc, hb'⟩, rfl⟩

/-- No slot is patched twice. -/
theorem nodup_likelySlots (r : Region) : r.likelySlots.Nodup :=
  ((List.filter_sublist (l := r.blocks)).map Prod.fst).nodup r.sorted_slots.nodup

/-- The synthetic entry does not end in a branch. -/
theorem ne_entry_of_mem_likelySlots (h : r.bare? entrySlot = some Block.entryBlock)
    (hs : s ∈ r.likelySlots) : s ≠ entrySlot := by
  rintro rfl
  obtain ⟨b, hb, -, hlikely⟩ := mem_likelySlots.1 hs
  rw [h, Option.some.injEq] at hb
  rw [← hb] at hlikely
  cases hlikely

/-- The branches in the slots can be patched one after the other. What holds with all of them to do,
and with those that are left once one is done, holds in the end. -/
theorem foldlM_patchLikely {P : List Slot → Region → Prop}
    (hstep : ∀ s l r r' p a tr taken notTaken w, s ∉ l → P (s :: l) r →
      PatchedAt r r' s p a tr taken notTaken w → P l r')
    (l : List Slot) (hnodup : l.Nodup) (h : Linked r)
    (hl : ∀ s ∈ l, ∃ a, r.bare? s = some a ∧ ∃ tr taken notTaken w, a.Likely tr taken notTaken w)
    (hP : P l r) :
    ∃ r', l.foldlM (fun r s => do return (← r.patchLikely s).1) r = Except.ok r' ∧ Linked r' ∧
      P [] r' := by
  induction l generalizing r with
  | nil => exact ⟨r, rfl, h, hP⟩
  | cons s l ih =>
    obtain ⟨hsl, hnodup⟩ := List.nodup_cons.1 hnodup
    obtain ⟨a, ha, tr, taken, notTaken, w, hlikely⟩ := hl s List.mem_cons_self
    obtain ⟨r₁, p, hok₁, hpatch⟩ := patchLikely_spec h ha hlikely
    obtain ⟨r', hok, h', hP'⟩ := ih hnodup hpatch.relinked
      (fun x hx => by
        obtain ⟨b, hb, hb'⟩ := hl x (List.mem_cons_of_mem _ hx)
        exact ⟨b, hpatch.bare_of_bare hb, hb'⟩)
      (hstep _ _ _ _ _ _ _ _ _ _ hsl hP hpatch)
    refine ⟨r', ?_, h', hP'⟩
    rw [List.foldlM_cons]
    change ((r.patchLikely s >>= fun q => pure q.1) >>= _) = _
    rw [hok₁]
    exact hok

/-- Patching ends, and what it does for one branch it does for all. -/
theorem exists_patchAll {P : List Slot → Region → Prop}
    (hstep : ∀ s l r r' p a tr taken notTaken w, s ∉ l → P (s :: l) r →
      PatchedAt r r' s p a tr taken notTaken w → P l r')
    (h : Linked r) (hentry : r.bare? entrySlot = some Block.entryBlock)
    (hguest : ∀ s a, s ≠ entrySlot → r.bare? s = some a → a.endsInLikely = true → a.Guest K)
    (hP : P r.likelySlots r) :
    ∃ r' n, r.patchAll = .ok (r', n) ∧ Linked r' ∧ P [] r' := by
  obtain ⟨r', hok, h', hP'⟩ := foldlM_patchLikely hstep r.likelySlots (nodup_likelySlots r) h
    (fun s hs => by
      obtain ⟨a, ha, -, hlikely⟩ := mem_likelySlots.1 hs
      have hs0 := ne_entry_of_mem_likelySlots hentry hs
      exact ⟨a, ha, exists_likely (hguest s a hs0 ha hlikely) hlikely⟩)
    hP
  refine ⟨r', r.likelySlots.length, ?_, h', hP'⟩
  unfold Region.patchAll
  change (r.likelySlots.foldlM _ r >>= fun r => _) = _
  rw [hok]
  rfl

/-- All likely branches of guest blocks are patched but for those in the slots of `pending`. -/
def PatchedBut (pending : List Slot) (r : Region) : Prop :=
  ∀ s a, s ≠ entrySlot → r.bare? s = some a → a.patchTarget = none → a.endsInLikely = true →
    s ∉ pending → ∃ p b tr taken notTaken w, p ∈ r.succs s ∧ r.bare? p = some b ∧
      a.PatchOf b tr taken notTaken w

/-- One branch less is to be patched. -/
theorem PatchedBut.patchedAt {tr : Transfer} {taken notTaken w : UInt32} {l : List Slot}
    (h : PatchedBut (s :: l) r) (hpatch : PatchedAt r r' s p a tr taken notTaken w) :
    PatchedBut l r' := by
  intro x c hx hc hnone hlikely hxl
  have hxp : x ≠ p := by
    rintro rfl
    rw [hpatch.patch, Option.some.injEq] at hc
    rw [← hc] at hnone
    cases hnone
  have hc := hpatch.bare_of_ne hxp hc
  by_cases hxs : x = s
  · rw [hxs, hpatch.source, Option.some.injEq] at hc
    exact ⟨p, _, tr, taken, notTaken, w, hxs ▸ hpatch.succ_patch, hpatch.patch,
      hc ▸ hpatch.branch.patchOf⟩
  · -- A branch that is patched stays so.
    obtain ⟨q, b, tr', taken', notTaken', w', hq, hb, hof⟩ :=
      h x c hx hc hnone hlikely (by simp [hxs, hxl])
    exact ⟨q, b, tr', taken', notTaken', w', (hpatch.succs_other hxs hxp).2 hq,
      hpatch.bare_of_bare hb, hof⟩

/-- Patching all likely branches keeps the region patched and leaves none out. -/
theorem Patched.patchAll (h : Patched K r) :
    ∃ r' n, r.patchAll = .ok (r', n) ∧ Patched K r' ∧ AllPatched r' ∧
      r'.entryAddr = r.entryAddr := by
  obtain ⟨r', n, hok, -, h', hall, hentry⟩ := exists_patchAll
    (P := fun l r₁ => Patched K r₁ ∧ PatchedBut l r₁ ∧ r₁.entryAddr = r.entryAddr)
    (fun s l r₁ r₂ p a tr taken notTaken w _ ⟨h₁, hbut, hentry₁⟩ hpatch =>
      ⟨h₁.patchedAt hpatch, hbut.patchedAt hpatch, hpatch.entryAddr.trans hentry₁⟩)
    h.linked h.entry (fun s a hs0 hs => h.guest_of_likely hs0 hs)
    ⟨h, fun s a hs0 hs hnone hlikely hnot =>
      absurd (mem_likelySlots.2 ⟨a, hs, hnone, hlikely⟩) hnot, rfl⟩
  exact ⟨r', n, hok, h', fun s a hs0 hs hnone hlikely => hall s a hs0 hs hnone hlikely
    List.not_mem_nil, hentry⟩

/-! ## Pruning -/

/-- Removing several blocks removes them with their edges, and changes nothing else. -/
theorem foldlM_removeBlock (l : List Slot) (hnodup : l.Nodup) (h : Linked r)
    (hl : ∀ s ∈ l, ∃ b, r.block? s = some b) :
    ∃ r', l.foldlM (fun r s => do return (← r.removeBlock s).1) r = Except.ok r' ∧ Linked r' ∧
      (∀ x, r'.bare? x = if x ∈ l then none else r.bare? x) ∧
      (∀ x y, y ∈ r'.succs x ↔ y ∈ r.succs x ∧ x ∉ l ∧ y ∉ l) ∧
      (∀ x t, r'.blockAt? x = some t ↔ r.blockAt? x = some t ∧ t ∉ l) ∧
      r'.entryAddr = r.entryAddr := by
  induction l generalizing r with
  | nil => exact ⟨r, rfl, h, by simp, by simp, by simp, rfl⟩
  | cons s l ih =>
    -- The first block goes, and the others are still there.
    obtain ⟨hsl, hnodup⟩ := List.nodup_cons.1 hnodup
    obtain ⟨b, hb⟩ := hl s List.mem_cons_self
    obtain ⟨r₁, b', hok₁, _, h₁, hbare₁, hmem₁, hat₁, hentry₁⟩ := removeBlock_spec h hb
    obtain ⟨r', hok, h', hbare, hmem, hat, hentry⟩ := ih hnodup h₁ fun x hx => by
      have hxs : x ≠ s := by
        rintro rfl
        exact hsl hx
      rw [exists_block_iff_bare?, hbare₁, if_neg hxs, ← exists_block_iff_bare?]
      exact hl x (List.mem_cons_of_mem _ hx)
    refine ⟨r', ?_, h', fun x => ?_, fun x y => ?_, fun x t => ?_, hentry.trans hentry₁⟩
    · rw [List.foldlM_cons]
      change ((r.removeBlock s >>= fun q => pure q.1) >>= _) = _
      rw [hok₁]
      exact hok
    · rw [hbare, hbare₁]
      grind
    · rw [hmem, hmem₁]
      grind
    · rw [hat, hat₁]
      grind

/-- The flow graph of a patched region is well formed. -/
theorem Patched.wellFormed (h : Patched K r) : r.flowGraph.WellFormed := by
  obtain ⟨b, hb, _⟩ := exists_block_of_bare? h.entry
  exact h.linked.wellFormed hb

/-- Pruning removes the blocks that cannot be reached, and changes nothing else. -/
theorem prune_spec (h : Linked r) (hentry : r.bare? entrySlot = some Block.entryBlock) :
    ∃ r' n, r.prune = .ok (r', n) ∧ Linked r' ∧
      (∀ s c, r'.bare? s = some c ↔ r.bare? s = some c ∧ r.flowGraph.Reachable s) ∧
      (∀ x y, y ∈ r'.succs x ↔ y ∈ r.succs x ∧ r.flowGraph.Reachable x) ∧
      (∀ x t, r'.blockAt? x = some t ↔ r.blockAt? x = some t ∧ r.flowGraph.Reachable t) ∧
      r'.entryAddr = r.entryAddr := by
  obtain ⟨b, hb, _⟩ := exists_block_of_bare? hentry
  have hg := h.wellFormed hb
  let dead := (r.blocks.map (·.1)).filter (!r.flowGraph.reachable.contains ·)
  have hdead : ∀ s, s ∈ dead ↔ (∃ b, r.block? s = some b) ∧ ¬ r.flowGraph.Reachable s := by
    intro s
    have hnode : s ∈ r.blocks.map (·.1) ↔ ∃ b, r.block? s = some b := mem_nodes
    simp only [dead, List.mem_filter, hnode, Bool.not_eq_true', ← Bool.not_eq_true,
      List.contains_iff_mem, Flow.Graph.mem_reachable_iff hg]
  -- For a block that is there, to be left is to be reachable.
  have hleft : ∀ s, (∃ b, r.block? s = some b) → (s ∉ dead ↔ r.flowGraph.Reachable s) := by
    intro s hs
    rw [hdead, not_and]
    exact ⟨fun hr => Classical.byContradiction (hr hs), fun hr _ hn => hn hr⟩
  obtain ⟨r', hok, h', hbare, hmem, hat, hentry'⟩ := foldlM_removeBlock dead
    (List.filter_sublist.nodup r.sorted_slots.nodup) h fun s hs => ((hdead s).1 hs).1
  refine ⟨r', dead.length, ?_, h', fun s c => ?_, fun x y => ?_, fun x t => ?_, hentry'⟩
  · unfold Region.prune
    change (dead.foldlM _ r >>= fun r => _) = _
    rw [hok]
    rfl
  · rw [hbare]
    constructor
    · intro hc
      split at hc
      · cases hc
      · rename_i hs
        exact ⟨hc, (hleft s (exists_block_iff_bare?.2 ⟨c, hc⟩)).1 hs⟩
    · rintro ⟨hc, hs⟩
      rw [if_neg ((hleft s (exists_block_iff_bare?.2 ⟨c, hc⟩)).2 hs)]
      exact hc
  · rw [hmem]
    refine and_congr_right fun hxy => ?_
    rw [hleft x (h.source_live hxy), hleft y (h.live x y hxy)]
    exact and_iff_left_of_imp fun hx => hx.succ hxy
  · rw [hat]
    refine and_congr_right fun hx => hleft t ?_
    obtain ⟨c, hc, _, _⟩ := h.addr_guest x t hx
    exact exists_block_iff_bare?.2 ⟨c, hc⟩

/-- Pruning keeps the region patched, and what is left can be reached. -/
theorem Patched.prune (h : Patched K r) (hall : AllPatched r) :
    ∃ r' n, r.prune = .ok (r', n) ∧ Patched K r' ∧ AllPatched r' ∧ r'.flowGraph.Rooted ∧
      r'.entryAddr = r.entryAddr := by
  obtain ⟨r', n, hok, h', hbare, hmem, hat, hentry⟩ := prune_spec h.linked h.entry
  have h0 : r.flowGraph.Reachable entrySlot := Flow.Graph.Reachable.entry _
  have hp' : Patched K r' := by
    refine ⟨h', (hbare _ _).2 ⟨h.entry, h0⟩, fun t ht => ?_, ?_, fun s hs => ?_,
      fun s b hs hb => ?_, fun s t a b hs hst ha hb => ?_, fun s b hb => ?_⟩
    -- What stays can be reached, and with it whatever it leads to.
    · have ht := ((hmem _ _).1 ht).1
      unfold firstBlock?
      rw [hentry]
      exact (hat _ t).2 ⟨h.first t ht, h0.succ ht⟩
    · obtain ⟨t, ht⟩ := h.entered
      exact ⟨t, (hmem _ _).2 ⟨ht, h0⟩⟩
    · exact h.no_back s ((hmem _ _).1 hs).1
    · exact h.block s b hs ((hbare s b).1 hb).1
    · exact h.edge s t a b hs ((hmem s t).1 hst).1 ((hbare s a).1 ha).1 ((hbare t b).1 hb).1
    · exact h.no_phis s b ((hbare s b).1 hb).1
  refine ⟨r', n, hok, hp', fun s a hs ha hpatch hlikely => ?_, ⟨hp'.wellFormed,
    fun s hs => ?_, ?_⟩, hentry⟩
  · obtain ⟨ha, hsr⟩ := (hbare s a).1 ha
    obtain ⟨p, b, tr, taken, notTaken, w, hsp, hb, hp⟩ := hall s a hs ha hpatch hlikely
    exact ⟨p, b, tr, taken, notTaken, w, (hmem s p).2 ⟨hsp, hsr⟩,
      (hbare p b).2 ⟨hb, hsr.succ hsp⟩, hp⟩
  · obtain ⟨b, hb⟩ := mem_nodes.1 hs
    obtain ⟨l, hl⟩ := ((hbare s b.bare).1 (bare?_of_block hb)).2
    refine ⟨l, ?_⟩
    -- A path to a block that stays has only blocks that stay.
    clear hs hb
    induction hl with
    | refl => exact .refl
    | step hl edge ih => exact .step ih ((hmem _ _).2 ⟨edge, ⟨_, hl⟩⟩)
  · refine List.eq_nil_iff_forall_not_mem.2 fun x hx => ?_
    exact hp'.no_back x ((hp'.linked.succ_iff x entrySlot).2 hx)

/-! ## Plausible edges -/

/-- Every edge of a patched region is one that the code can take, if no patch block stands at the
address of the synthetic entry. -/
theorem Patched.checkPlausible (h : Patched K r)
    (hmark : ∀ s b, s ≠ entrySlot → r.bare? s = some b → b.entry ≠ entryMark) :
    r.checkPlausible = .ok () := by
  unfold Region.checkPlausible
  rw [if_pos]
  rw [List.all_eq_true]
  rintro ⟨s, b⟩ hb
  have hb := mem_blocks.1 hb
  simp only [isPlausible, List.all_eq_true]
  intro t ht
  rw [← succs_of_block hb] at ht
  obtain ⟨c, hc⟩ := h.linked.live s t ht
  simp only [hc]
  -- The synthetic entry goes on at the address of the region, any other block at one of its
  -- targets.
  by_cases hs : s = entrySlot
  · have hentry := h.entry
    rw [← hs, bare?_of_block hb, Option.some.injEq] at hentry
    have hbmark : b.entry = entryMark := (congrArg Block.entry hentry :)
    obtain ⟨d, hd, _, hde⟩ := h.linked.addr_guest _ _ (h.first t (hs ▸ ht))
    rw [bare?_of_block hc, Option.some.injEq] at hd
    subst hd
    have hde : c.entry = r.entryAddr := hde
    simp [Block.isRegionEntry, hbmark, hde]
  · have hbmark : b.entry ≠ entryMark := hmark s b.bare hs (bare?_of_block hb)
    have hbmark : b.isRegionEntry = false := by simpa [Block.isRegionEntry] using hbmark
    rw [hbmark, if_neg (by simp), List.contains_iff_mem]
    rcases h.edge s t _ _ hs ht (bare?_of_block hb) (bare?_of_block hc) with
      ⟨hpatch, hentry⟩ | ⟨_, tr, taken, notTaken, w, hp⟩
    · have hpatch : c.patchTarget = none := hpatch
      rw [hpatch]
      exact hentry
    · have hpatch : c.patchTarget = some taken := hp.target
      have htr : b.transfer = some tr := hp.transfer
      rw [hpatch]
      simp [Block.staticTargets, htr, hp.control, Control.targets]

end HotRegion.Region
