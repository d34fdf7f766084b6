import Mathlib.Data.List.Nodup
import HotRegion.Proofs.Region.Shape

/-!
# Regions made of traces

A region starts out as the blocks of some traces, wired by the targets of their code. `Traced` is
what holds of it until likely branches are patched: the synthetic entry goes to the first block
alone and nothing goes back to it, every other block is a shaped guest block, and every edge leads
to an address that the code of its source can reach.

## Key results

- `Woven.wireBlock` / `Traced.wire`: wiring succeeds and keeps what holds
- `ofTraces_spec`: the blocks of traces form a traced region
-/

namespace HotRegion.Region

open Isa
open Machine (Trace wordAddr)
open Ascending (Sorted)

variable {r r' : Region} {s t x y : Slot} {a b : Block} {addr : UInt32}
  {K : UInt32 × UInt32 → Prop}

@[simp] theorem Block.staticTargets_bare (b : Block) : b.bare.staticTargets = b.staticTargets := rfl

@[simp] theorem Block.transfer_bare (b : Block) : b.bare.transfer = b.transfer := rfl

@[simp] theorem Block.code_bare (b : Block) : b.bare.code = b.code := rfl

@[simp] theorem Block.isGuest_bare (b : Block) : b.bare.isGuest = b.isGuest := rfl

/-- A block of the guest program whose words all satisfy `K`. -/
structure Block.Guest (K : UInt32 × UInt32 → Prop) (b : Block) : Prop where
  not_patch : b.patchTarget = none
  entry_ne : b.entry ≠ entryMark
  shaped : b.Shaped
  code : ∀ p ∈ b.code, K p

/-- A guest block is no entry and no patch block. -/
theorem Block.Guest.isGuest (h : b.Guest K) : b.isGuest = true := by
  simp [Block.isGuest, Block.isPatch, Block.isRegionEntry, h.not_patch, h.entry_ne]

/-- Guest blocks with edges along their code, and a synthetic entry that nothing goes back to. -/
structure Woven (K : UInt32 × UInt32 → Prop) (r : Region) : Prop where
  linked : Linked r
  entry : r.bare? entrySlot = some Block.entryBlock
  no_back : ∀ s, entrySlot ∉ r.succs s
  guest : ∀ s b, s ≠ entrySlot → r.bare? s = some b → b.Guest K
  edge : ∀ s t a b, s ≠ entrySlot → t ∈ r.succs s → r.bare? s = some a → r.bare? t = some b →
    b.entry ∈ a.staticTargets
  no_phis : ∀ s b, r.bare? s = some b → b.phis = []

/-- A woven region whose synthetic entry goes to the first block alone. -/
structure Traced (K : UInt32 × UInt32 → Prop) (r : Region) : Prop extends Woven K r where
  first : ∀ t ∈ r.succs entrySlot, r.firstBlock? = some t

/-- Every guest block is found under the address where it starts. -/
def Indexed (r : Region) : Prop :=
  ∀ s b, s ≠ entrySlot → r.bare? s = some b → r.blockAt? b.entry = some s

/-- Every guest block is found under its address, and has an edge to each block of the region that
its code can go on at. -/
structure Wired (r : Region) : Prop where
  indexed : r.Indexed
  complete : ∀ s a addr t, s ≠ entrySlot → r.bare? s = some a → addr ∈ a.staticTargets →
    r.blockAt? addr = some t → t ∈ r.succs s

namespace Woven

/-- A slot with a guest block is not the one of the synthetic entry. -/
theorem ne_entry (h : Woven K r) (hb : r.bare? s = some b) (hguest : b.isGuest = true) :
    s ≠ entrySlot := by
  rintro rfl
  rw [h.entry] at hb
  cases hb
  cases hguest

/-- The list by addresses does not have the synthetic entry. -/
theorem blockAt?_ne_entry (h : Woven K r) (hs : r.blockAt? addr = some s) : s ≠ entrySlot := by
  obtain ⟨b, hb, hguest, _⟩ := h.linked.addr_guest addr s hs
  exact h.ne_entry hb hguest

/-- Other edges along the code keep a region woven. -/
theorem of_sameBlocks (h : Woven K r) (hr' : Linked r') (hsame : SameBlocks r r')
    (hedge : ∀ s t a b, t ∈ r'.succs s → t ∉ r.succs s → r.bare? s = some a → r.bare? t = some b →
      t ≠ entrySlot ∧ (s ≠ entrySlot → b.entry ∈ a.staticTargets)) : Woven K r' where
  linked := hr'
  entry := (hsame.bare _).trans h.entry
  no_back s hs := by
    by_cases hold : entrySlot ∈ r.succs s
    · exact h.no_back s hold
    · obtain ⟨a, ha⟩ := exists_block_iff_bare?.1 (hr'.source_live hs)
      rw [hsame.bare] at ha
      exact (hedge s entrySlot a _ hs hold ha h.entry).1 rfl
  guest s b hs hb := h.guest s b hs (hsame.bare s ▸ hb)
  edge s t a b hs hst ha hb := by
    rw [hsame.bare] at ha hb
    by_cases hold : t ∈ r.succs s
    · exact h.edge s t a b hs hold ha hb
    · exact (hedge s t a b hst hold ha hb).2 hs
  no_phis s b hb := h.no_phis s b (hsame.bare s ▸ hb)

/-- The words of all blocks satisfy another property. -/
theorem of_code {K' : UInt32 × UInt32 → Prop} (h : Woven K r)
    (hcode : ∀ s b, s ≠ entrySlot → r.bare? s = some b → ∀ p ∈ b.code, K p → K' p) :
    Woven K' r where
  linked := h.linked
  entry := h.entry
  no_back := h.no_back
  guest s b hs hb :=
    have hg := h.guest s b hs hb
    ⟨hg.not_patch, hg.entry_ne, hg.shaped, fun p hp => hcode s b hs hb p hp (hg.code p hp)⟩
  edge := h.edge
  no_phis := h.no_phis

end Woven

/-- New edges that do not leave the synthetic entry keep a region traced. -/
theorem Traced.of_sameBlocks (h : Traced K r) (hr' : Woven K r') (hsame : SameBlocks r r')
    (hentry : ∀ t, t ∈ r'.succs entrySlot ↔ t ∈ r.succs entrySlot) : Traced K r' where
  toWoven := hr'
  first t ht := by
    unfold firstBlock?
    rw [hsame.entryAddr, hsame.blockAt?]
    exact h.first t ((hentry t).1 ht)

/-! ## Wiring -/

/-- Wiring a block adds the edges to the blocks at its targets. -/
theorem wireBlock_spec (h : Linked r) (hs : r.block? s = some b) :
    ∃ r', r.wireBlock s = .ok r' ∧ Linked r' ∧ SameBlocks r r' ∧
      ∀ x y, y ∈ r'.succs x ↔
        y ∈ r.succs x ∨ x = s ∧ ∃ addr ∈ b.staticTargets, r.blockAt? addr = some y := by
  -- Induction on the targets. The table of addresses stays, so each target is looked up in the
  -- region as it was.
  have hfold : ∀ (l : List UInt32) (r : Region) (b : Block), Linked r → r.block? s = some b →
      ∃ r', l.foldlM (fun r addr => (r.blockAt? addr).elim (.ok r) (r.addEdge s)) r = .ok r' ∧
        Linked r' ∧ SameBlocks r r' ∧
        ∀ x y, y ∈ r'.succs x ↔
          y ∈ r.succs x ∨ x = s ∧ ∃ addr ∈ l, r.blockAt? addr = some y := by
    intro l
    induction l with
    | nil => exact fun r b h _ => ⟨r, rfl, h, .refl r, by simp⟩
    | cons addr l ih =>
      intro r b h hs
      rw [List.foldlM_cons]
      cases hat : r.blockAt? addr with
      | none =>
        obtain ⟨r', hok, h', hsame, hmem⟩ := ih r b h hs
        exact ⟨r', hok, h', hsame, fun x y => by simp [hmem, hat]⟩
      | some t =>
        obtain ⟨c, hc, _, _⟩ := h.addr_guest addr t hat
        obtain ⟨r₁, hok₁, h₁, hsame₁, hmem₁⟩ := addEdge_spec h hs
          (exists_block_iff_bare?.2 ⟨c, hc⟩)
        obtain ⟨b₁, hb₁⟩ := hsame₁.live.2 ⟨b, hs⟩
        obtain ⟨r', hok, h', hsame, hmem⟩ := ih r₁ b₁ h₁ hb₁
        refine ⟨r', ?_, h', hsame₁.trans hsame, fun x y => ?_⟩
        · change (r.addEdge s t >>= fun r => _) = _
          rw [hok₁]
          exact hok
        · have hty : t = y ↔ y = t := eq_comm
          simp only [hmem, hmem₁, hsame₁.blockAt?, List.mem_cons, or_and_right, exists_or,
            exists_eq_left, hat, Option.some.injEq, or_assoc, and_or_left, hty]
  obtain ⟨r', hok, h', hsame, hmem⟩ := hfold b.staticTargets r b h hs
  refine ⟨r', ?_, h', hsame, hmem⟩
  unfold wireBlock
  rw [block_eq_ok hs, ← hok]
  change List.foldlM _ r b.staticTargets = _
  congr 1
  funext r addr
  cases r.blockAt? addr <;> rfl

/-- Wiring a guest block keeps the region woven. -/
theorem Woven.wireBlock (h : Woven K r) (hs : r.block? s = some b) (hne : s ≠ entrySlot) :
    ∃ r', r.wireBlock s = .ok r' ∧ Woven K r' ∧ SameBlocks r r' ∧
      (∀ x y, y ∈ r'.succs x ↔
        y ∈ r.succs x ∨ x = s ∧ ∃ addr ∈ b.staticTargets, r.blockAt? addr = some y) ∧
      ∀ t, t ∈ r'.succs entrySlot ↔ t ∈ r.succs entrySlot := by
  obtain ⟨r', hok, h', hsame, hmem⟩ := wireBlock_spec h.linked hs
  refine ⟨r', hok, h.of_sameBlocks h' hsame ?_, hsame, hmem, fun t => ?_⟩
  · intro x y a c hxy hnew ha hc
    obtain ⟨rfl, addr, haddr, hat⟩ := ((hmem x y).1 hxy).resolve_left hnew
    obtain ⟨c', hc', _, rfl⟩ := h.linked.addr_guest addr y hat
    rw [bare?_of_block hs] at ha
    rw [hc'] at hc
    cases ha
    cases hc
    exact ⟨h.blockAt?_ne_entry hat, fun _ => haddr⟩
  · rw [hmem]
    exact or_iff_left fun hts => hne hts.1.symm

/-- Wiring keeps the region traced, and wires the blocks that are found under their addresses. -/
theorem Traced.wire (h : Traced K r) :
    ∃ r', r.wire = .ok r' ∧ Traced K r' ∧ SameBlocks r r' ∧ (Indexed r → Wired r') ∧
      ∀ t, t ∈ r'.succs entrySlot ↔ t ∈ r.succs entrySlot := by
  -- Induction on the blocks. Edges are only added, so those of a block that is done stay.
  have hfold : ∀ (l : List (Slot × Block)) (r : Region), Traced K r →
      (∀ p ∈ l, p.1 ≠ entrySlot ∧ ∃ b, r.block? p.1 = some b) →
      ∃ r', l.foldlM (fun r p => r.wireBlock p.1) r = Except.ok r' ∧ Traced K r' ∧
        SameBlocks r r' ∧ (∀ x y, y ∈ r.succs x → y ∈ r'.succs x) ∧
        (∀ p ∈ l, ∀ a addr t, r.bare? p.1 = some a → addr ∈ a.staticTargets →
          r.blockAt? addr = some t → t ∈ r'.succs p.1) ∧
        ∀ t, t ∈ r'.succs entrySlot ↔ t ∈ r.succs entrySlot := by
    intro l
    induction l with
    | nil =>
      exact fun r h _ => ⟨r, rfl, h, .refl r, fun _ _ h => h, by simp, fun _ => Iff.rfl⟩
    | cons p l ih =>
      intro r h hl
      obtain ⟨hne, b, hb⟩ := hl p List.mem_cons_self
      obtain ⟨r₁, hok₁, h₁, hsame₁, hmem₁, hentry₁⟩ := h.wireBlock hb hne
      obtain ⟨r', hok, h', hsame, hkeep, hwired, hentry⟩ :=
        ih r₁ (h.of_sameBlocks h₁ hsame₁ hentry₁) fun q hq =>
          ⟨(hl q (List.mem_cons_of_mem _ hq)).1,
            hsame₁.live.2 (hl q (List.mem_cons_of_mem _ hq)).2⟩
      refine ⟨r', ?_, h', hsame₁.trans hsame,
        fun x y hxy => hkeep x y ((hmem₁ x y).2 (.inl hxy)), fun q hq a addr t ha haddr ht => ?_,
        fun t => (hentry t).trans (hentry₁ t)⟩
      · rw [List.foldlM_cons, hok₁]
        exact hok
      · rcases List.mem_cons.1 hq with rfl | hq
        · rw [bare?_of_block hb, Option.some.injEq] at ha
          subst ha
          exact hkeep _ _ ((hmem₁ _ _).2 (.inr ⟨rfl, addr, haddr, ht⟩))
        · exact hwired q hq a addr t ((hsame₁.bare _).trans ha) haddr ((hsame₁.blockAt? _).trans ht)
  have hlive : ∀ p ∈ r.blocks.filter (!·.2.isRegionEntry),
      p.1 ≠ entrySlot ∧ ∃ b, r.block? p.1 = some b := by
    intro p hp
    obtain ⟨hmem, hnot⟩ := List.mem_filter.1 hp
    have hb : r.block? p.1 = some p.2 := mem_blocks.1 hmem
    refine ⟨fun heq => ?_, p.2, hb⟩
    have hentry := h.entry
    rw [← heq, bare?_of_block hb, Option.some.injEq] at hentry
    have hmark : p.2.entry = entryMark := congrArg Block.entry hentry
    simp [Block.isRegionEntry, hmark] at hnot
  obtain ⟨r', hok, h', hsame, -, hwired, hentry⟩ := hfold _ r h hlive
  refine ⟨r', hok, h', hsame, fun hindexed => ⟨fun s b hs hb => ?_, fun s a addr t hs ha => ?_⟩,
    hentry⟩
  · rw [hsame.blockAt?]
    exact hindexed s b hs ((hsame.bare s).symm.trans hb)
  · rw [hsame.bare] at ha
    obtain ⟨b, hb, rfl⟩ := exists_block_of_bare? ha
    have hmark : b.entry ≠ entryMark := (h.guest s b.bare hs ha).entry_ne
    rw [hsame.blockAt?]
    exact hwired (s, b) (List.mem_filter.2 ⟨mem_blocks.2 hb, by simp [Block.isRegionEntry, hmark]⟩)
      b.bare addr t ha

/-! ## The blocks of traces -/

/-- The block in a slot is the code of one of the traces. -/
structure Block.Holds (b : Block) (t : Trace) : Prop where
  entry : b.entry = t.entry
  words : b.words = t.words

/-- A new guest block without edges keeps a region traced. -/
theorem Traced.insertBlock (h : Traced K r) (hb : b.Isolated) (hguest : b.bare.Guest K)
    (hphis : b.phis = []) (hnew : r.blockAt? b.entry = none) :
    ∃ r' s, r.insertBlock b = (r', s) ∧ Traced K r' ∧ r.block? s = none ∧
      r'.bare? s = some b.bare ∧ (∀ x, x ≠ s → r'.bare? x = r.bare? x) ∧
      (∀ x, r'.succs x = r.succs x) ∧
      (∀ x, r'.blockAt? x = if x = b.entry then some s else r.blockAt? x) ∧
      r'.entryAddr = r.entryAddr := by
  obtain ⟨r', s, heq, h', hnone, hs, hother, hsuccs, hat, hentry⟩ := insertBlock_spec h.linked hb
  have hfree : r.bare? s = none := by simp [bare?, hnone]
  have hbare : ∀ x, x ≠ s → r'.bare? x = r.bare? x := fun x hx => by simp [bare?, hother x hx]
  have hat' : ∀ x, r'.blockAt? x = if x = b.entry then some s else r.blockAt? x := by
    intro x
    rw [hat, ← Block.isGuest_bare, hguest.isGuest]
    simp
  have hs0 : entrySlot ≠ s := by
    rintro rfl
    rw [h.entry] at hfree
    cases hfree
  refine ⟨r', s, heq, ⟨⟨h', ?entry, ?no_back, ?guest, ?edge, ?no_phis⟩, ?first⟩, hnone,
    bare?_of_block hs, hbare, hsuccs, hat', hentry⟩
  case entry =>
    rw [hbare _ hs0]
    exact h.entry
  case no_back =>
    intro x
    rw [hsuccs]
    exact h.no_back x
  case guest =>
    intro x c hx hc
    by_cases hxs : x = s
    · rw [hxs, bare?_of_block hs, Option.some.injEq] at hc
      rw [← hc]
      exact hguest
    · exact h.guest x c hx (hbare x hxs ▸ hc)
  case edge =>
    intro x y a c hx hxy ha hc
    rw [hsuccs] at hxy
    -- The slot was free, so no edge touched it.
    obtain ⟨hxs, hys⟩ := h.linked.ne_of_free hfree hxy
    rw [hbare x hxs] at ha
    rw [hbare y hys] at hc
    exact h.edge x y a c hx hxy ha hc
  case no_phis =>
    intro x c hc
    by_cases hxs : x = s
    · rw [hxs, bare?_of_block hs, Option.some.injEq] at hc
      rw [← hc]
      exact hphis
    · exact h.no_phis x c (hbare x hxs ▸ hc)
  case first =>
    -- The new block may start where the region is entered only if no block did before.
    intro t ht
    rw [hsuccs] at ht
    have hfirst := h.first t ht
    unfold firstBlock? at hfirst ⊢
    rw [hentry, hat']
    split
    · rename_i heq
      rw [heq, hnew] at hfirst
      cases hfirst
    · exact hfirst

/-- The region with the block of one trace more, unless there is a block at its address. -/
def addTrace (indirect : UInt32 → List UInt32) (r : Region) (t : Trace) : Region :=
  if t.words.isEmpty || (r.blockAt? t.entry).isSome then r
  else
    let b := Block.ofTrace t
    let targets :=
      if b.endsInJumpReg then Ascending.ofList UInt32.toNat (indirect t.entry) else []
    (r.insertBlock { b with indirectTargets := targets }).1

/-- What holds while the blocks of traces are put in. -/
private structure Filled (K : UInt32 × UInt32 → Prop) (traces : List Trace) (r : Region) : Prop where
  traced : Traced K r
  unwired : ∀ x, r.succs x = []
  holds : ∀ s b, s ≠ entrySlot → r.bare? s = some b → ∃ t ∈ traces, b.Holds t
  found : ∀ t ∈ traces, ∃ s, r.blockAt? t.entry = some s
  indexed : Indexed r

/-- A new region has its synthetic entry and nothing else. -/
private theorem eq_entry_of_new {entryAddr : UInt32} (hb : (new entryAddr).block? s = some b) :
    s = entrySlot ∧ b = Block.entryBlock := by
  simp only [new, block?, Option.join_eq_some_iff, Array.getElem?_eq_some_iff] at hb
  obtain ⟨hlt, hb⟩ := hb
  have hs : s = 0 := Nat.lt_one_iff.1 hlt
  subst hs
  exact ⟨rfl, (Option.some.inj hb).symm⟩

/-- A new region has no edges. -/
theorem succs_new (entryAddr : UInt32) (s : Slot) : (new entryAddr).succs s = [] := by
  cases hb : (new entryAddr).block? s with
  | none => exact succs_of_none hb
  | some b => rw [succs_of_block hb, (eq_entry_of_new hb).2]; rfl

/-- A new region has no edges to note at their targets. -/
theorem preds_new (entryAddr : UInt32) (s : Slot) : (new entryAddr).preds s = [] := by
  cases hb : (new entryAddr).block? s with
  | none => exact preds_of_none hb
  | some b => rw [preds_of_block hb, (eq_entry_of_new hb).2]; rfl

/-- The region with the synthetic entry alone is linked. -/
theorem linked_new (entryAddr : UInt32) : Linked (new entryAddr) where
  succ_iff := by simp [succs_new, preds_new]
  live := by simp [succs_new]
  sorted := by simp [succs_new, Sorted]
  sorted_preds := by simp [preds_new, Sorted]
  free_dead := by simp [new]
  free_nodup := by simp [new]
  addr_sorted := by simp [new, Sorted]
  addr_guest := by simp [new, blockAt?]

/-- The region with the synthetic entry alone. -/
private theorem filled_new (entryAddr : UInt32) : Filled K [] (new entryAddr) := by
  have hdead : ∀ s b, s ≠ entrySlot → (new entryAddr).bare? s ≠ some b := by
    intro s b hs hb
    obtain ⟨c, hc, _⟩ := exists_block_of_bare? hb
    exact hs (eq_entry_of_new hc).1
  refine ⟨⟨⟨linked_new entryAddr, rfl, ?_, ?_, ?_, ?_⟩, ?_⟩, succs_new entryAddr, ?_, by simp,
    fun s b hs hb => absurd hb (hdead s b hs)⟩
  · simp [succs_new]
  · exact fun s b hs hb => absurd hb (hdead s b hs)
  · simp [succs_new]
  · intro s b hb
    obtain ⟨c, hc, rfl⟩ := exists_block_of_bare? hb
    rw [(eq_entry_of_new hc).2]
    rfl
  · simp [succs_new]
  · exact fun s b hs hb => absurd hb (hdead s b hs)

/-- Adding a trace puts its block into the region, unless there is one at its address. -/
private theorem filled_addTrace {traces : List Trace} {t : Trace} (h : Filled K traces r)
    (ht : (Block.ofTrace t).Guest K) (indirect : UInt32 → List UInt32) :
    Filled K (traces ++ [t]) (addTrace indirect r t) ∧
      (addTrace indirect r t).entryAddr = r.entryAddr := by
  have hwords : t.words.isEmpty = false := List.isEmpty_eq_false_iff.2 ht.shaped.ne_nil
  cases hat : r.blockAt? t.entry with
  -- The trace at an address that is taken is left out.
  | some s =>
    have heq : addTrace indirect r t = r := by simp [addTrace, hat]
    rw [heq]
    refine ⟨⟨h.traced, h.unwired, fun s b hs hb => ?_, fun u hu => ?_, h.indexed⟩, rfl⟩
    · obtain ⟨u, hu, hbu⟩ := h.holds s b hs hb
      exact ⟨u, List.mem_append_left _ hu, hbu⟩
    · rcases List.mem_append.1 hu with hu | hu
      · exact h.found u hu
      · rw [List.mem_singleton.1 hu]
        exact ⟨s, hat⟩
  | none =>
    -- Known targets of a register jump are noted, and are no part of what makes a guest block.
    let b : Block := { Block.ofTrace t with
      indirectTargets :=
        if (Block.ofTrace t).endsInJumpReg then Ascending.ofList UInt32.toNat (indirect t.entry)
        else [] }
    have hb : b.bare.Guest K := ⟨ht.not_patch, ht.entry_ne, ⟨ht.shaped.ne_nil, ht.shaped.position⟩,
      ht.code⟩
    obtain ⟨r', s, heq, h', _, hs, hother, hsuccs, hat', hentry⟩ :=
      h.traced.insertBlock (b := b) ⟨rfl, rfl⟩ hb rfl hat
    have heq' : addTrace indirect r t = r' := by
      simp only [addTrace, hwords, hat, Option.isSome_none, Bool.or_false, Bool.false_eq_true,
        if_false]
      exact congrArg Prod.fst heq
    rw [heq']
    refine ⟨⟨h', fun x => (hsuccs x).trans (h.unwired x), fun x c hx hc => ?_, fun u hu => ?_,
      fun x c hx hc => ?_⟩, hentry⟩
    · by_cases hxs : x = s
      · rw [hxs, hs, Option.some.injEq] at hc
        exact ⟨t, by simp, by rw [← hc]; exact ⟨rfl, rfl⟩⟩
      · obtain ⟨u, hu, hcu⟩ := h.holds x c hx (hother x hxs ▸ hc)
        exact ⟨u, List.mem_append_left _ hu, hcu⟩
    · rw [hat']
      split
      · exact ⟨s, rfl⟩
      · rename_i hne
        rcases List.mem_append.1 hu with hu | hu
        · exact h.found u hu
        · exact absurd (congrArg Trace.entry (List.mem_singleton.1 hu)) hne
    · rw [hat']
      by_cases hxs : x = s
      · rw [hxs, hs, Option.some.injEq] at hc
        rw [if_pos (by rw [← hc]; rfl), hxs]
      · have hold := h.indexed x c hx (hother x hxs ▸ hc)
        rw [if_neg, hold]
        intro hce
        rw [hce] at hold
        cases hat.symm.trans hold

/-- Adding traces one by one fills the region with their blocks. -/
private theorem filled_foldl {traces : List Trace} (h : Filled K traces r)
    (indirect : UInt32 → List UInt32) (l : List Trace)
    (hl : ∀ t ∈ l, (Block.ofTrace t).Guest K) :
    Filled K (traces ++ l) (l.foldl (addTrace indirect) r) ∧
      (l.foldl (addTrace indirect) r).entryAddr = r.entryAddr := by
  induction l generalizing traces r with
  | nil => exact ⟨by simpa using h, rfl⟩
  | cons t l ih =>
    obtain ⟨h₁, hentry₁⟩ := filled_addTrace h (hl t List.mem_cons_self) indirect
    obtain ⟨h', hentry⟩ := ih h₁ fun u hu => hl u (List.mem_cons_of_mem _ hu)
    exact ⟨by simpa using h', hentry.trans hentry₁⟩

/-- Of traces with different entries, each has its block. -/
private theorem Filled.exists_holds {traces : List Trace} {t : Trace} (h : Filled K traces r)
    (hentries : traces.Pairwise fun u v => u.entry ≠ v.entry) (ht : t ∈ traces) :
    ∃ s b, s ≠ entrySlot ∧ r.bare? s = some b ∧ b.Holds t := by
  obtain ⟨s, hs⟩ := h.found t ht
  obtain ⟨b, hb, -, hentry⟩ := h.traced.linked.addr_guest _ s hs
  have hne := h.traced.blockAt?_ne_entry hs
  obtain ⟨u, hu, hbu⟩ := h.holds s b hne hb
  -- The block at the entry holds a trace that starts there, and only `t` does.
  obtain rfl : u = t := List.inj_on_of_nodup_map (List.pairwise_map.2 hentries) hu ht
    (hbu.entry.symm.trans hentry)
  exact ⟨s, b, hne, hb, hbu⟩

/-- The synthetic entry is given its edge to the block at the address of the region. -/
private theorem Filled.enter {traces : List Trace} {f : Slot} (h : Filled K traces r)
    (hfirst : r.firstBlock? = some f) :
    ∃ r', r.addEdge entrySlot f = .ok r' ∧ Traced K r' ∧ SameBlocks r r' ∧
      f ∈ r'.succs entrySlot := by
  obtain ⟨b, hb, -⟩ := exists_block_of_bare? h.traced.entry
  obtain ⟨c, hc, -⟩ := h.traced.linked.addr_guest _ _ hfirst
  obtain ⟨r', hok, h', hsame, hmem⟩ := addEdge_spec h.traced.linked hb
    (exists_block_iff_bare?.2 ⟨c, hc⟩)
  -- It is the only edge of the region.
  have honly : ∀ x y, y ∈ r'.succs x ↔ x = entrySlot ∧ y = f := by
    intro x y
    rw [hmem, h.unwired]
    simp
  refine ⟨r', hok, ⟨⟨h', ?entry, fun x hx => ?no_back, fun s b hs hb => ?guest,
    fun x y a c hx hxy => ?edge, fun s b hb => ?no_phis⟩, fun t ht => ?first⟩, hsame,
    (honly _ _).2 ⟨rfl, rfl⟩⟩
  case entry => exact (hsame.bare _).trans h.traced.entry
  case no_back => exact h.traced.blockAt?_ne_entry hfirst ((honly _ _).1 hx).2.symm
  case guest => exact h.traced.guest s b hs (hsame.bare s ▸ hb)
  case edge => exact absurd ((honly x y).1 hxy).1 hx
  case no_phis => exact h.traced.no_phis s b (hsame.bare s ▸ hb)
  case first =>
    rw [((honly _ _).1 ht).2, firstBlock?, hsame.entryAddr, hsame.blockAt?]
    exact hfirst

/-- The blocks of some traces with different entries form a traced region: it is entered at the
first one, and its other blocks are those of the traces. -/
theorem ofTraces_spec {t : Trace} {rest : List Trace} (indirect : UInt32 → List UInt32)
    (hguest : ∀ u ∈ t :: rest, (Block.ofTrace u).Guest K)
    (hentries : (t :: rest).Pairwise fun u v => u.entry ≠ v.entry) :
    ∃ r, ofTraces (t :: rest) indirect = .ok r ∧ Traced K r ∧ (∃ f, f ∈ r.succs entrySlot) ∧
      r.entryAddr = t.entry ∧ Indexed r ∧
      (∀ s b, s ≠ entrySlot → r.bare? s = some b → ∃ u ∈ t :: rest, b.Holds u) ∧
      ∀ u ∈ t :: rest, ∃ s b, s ≠ entrySlot ∧ r.bare? s = some b ∧ b.Holds u := by
  obtain ⟨h, hentry⟩ := filled_foldl (filled_new t.entry) indirect (t :: rest) hguest
  let r := (t :: rest).foldl (addTrace indirect) (new t.entry)
  have h : Filled K (t :: rest) r := h
  have hentry : r.entryAddr = t.entry := hentry
  -- The block of the first trace is the one that the synthetic entry leads to.
  obtain ⟨f, hf⟩ := h.found t List.mem_cons_self
  have hfirst : r.firstBlock? = some f := by
    unfold firstBlock?
    rw [hentry]
    exact hf
  obtain ⟨r', hok, h', hsame, hentered⟩ := h.enter hfirst
  refine ⟨r', ?run, h', ⟨f, hentered⟩, hsame.entryAddr.trans hentry, fun s b hs hb => ?indexed,
    fun s b hs hb => h.holds s b hs (hsame.bare s ▸ hb), fun u hu => ?found⟩
  case run =>
    dsimp only [ofTraces]
    split
    · rename_i heq
      obtain rfl := Option.some.inj (hfirst.symm.trans heq)
      exact hok
    · rename_i heq
      cases hfirst.symm.trans heq
  case indexed =>
    rw [hsame.blockAt?]
    exact h.indexed s b hs (hsame.bare s ▸ hb)
  case found =>
    obtain ⟨s, b, hs, hb, hbu⟩ := h.exists_holds hentries hu
    exact ⟨s, b, hs, (hsame.bare s).trans hb, hbu⟩

end HotRegion.Region
