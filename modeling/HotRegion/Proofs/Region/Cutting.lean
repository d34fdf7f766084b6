import HotRegion.Proofs.Region.Traced

/-!
# Cutting blocks

Cutting a block in two hands its edges to the second half. Where another block starts at the cut,
one of the two gives way: the other block if it is the same code, the second half if it is not. For
all of this a region only has to be linked: its blocks may be of any shape.

## Key results

- `splitAt_spec`: the halves, their edges and the address of the second one
- `merge_spec` / `yield_spec`: what becomes of the two blocks at the cut
- `splitOverlap_cases`: an overlap is resolved by a cut alone, by merging or by yielding
- `splitOverlap_spec`: an overlap can be resolved, and what that leaves behind
-/

namespace HotRegion.Region

open Isa
open Machine (wordAddr)
open Ascending (Sorted)

variable {r r' : Region} {s t u x y outer inner tail : Slot} {a b c d : Block} {addr : UInt32}
  {i : Nat}

/-! ## Changes of one block -/

/-- A block with the same place in the graph may take the place of another one. -/
theorem linked_setBlock (h : Linked r) (hs : r.block? s = some a) (hsuccs : b.succs = a.succs)
    (hpreds : b.preds = a.preds) (hentry : b.entry = a.entry)
    (hpatch : b.patchTarget = a.patchTarget) : Linked (r.setBlock s b) := by
  -- The new block has the edges of the old one, so all of the lists stay.
  have hS : ∀ x, (r.setBlock s b).succs x = r.succs x := by
    intro x
    rw [succs_setBlock hs]
    split
    · rename_i hx
      rw [hx, succs_of_block hs, hsuccs]
    · rfl
  have hP : ∀ x, (r.setBlock s b).preds x = r.preds x := by
    intro x
    rw [preds_setBlock hs]
    split
    · rename_i hx
      rw [hx, preds_of_block hs, hpreds]
    · rfl
  exact {
    succ_iff x y := by
      rw [hS, hP]
      exact h.succ_iff x y
    live x y hxy := by
      rw [hS] at hxy
      obtain ⟨c, hc⟩ := h.live x y hxy
      rw [block?_setBlock hs]
      split
      · exact ⟨b, rfl⟩
      · exact ⟨c, hc⟩
    sorted x := hS x ▸ h.sorted x
    sorted_preds x := hP x ▸ h.sorted_preds x
    free_dead x hx := by
      obtain ⟨hlt, hnone⟩ := h.free_dead x hx
      refine ⟨by simpa [setBlock] using hlt, ?_⟩
      rw [block?_setBlock hs]
      split
      · rename_i hxs
        rw [hxs, hs] at hnone
        cases hnone
      · exact hnone
    free_nodup := h.free_nodup
    addr_sorted := h.addr_sorted
    addr_guest addr x hx := by
      obtain ⟨c, hc, hguest, hce⟩ := h.addr_guest addr x hx
      unfold bare?
      rw [block?_setBlock hs]
      split
      · -- The address leads to the block that is replaced, whose mark and entry are kept.
        rename_i hxs
        rw [hxs, bare?_of_block hs, Option.some.injEq] at hc
        subst hc
        refine ⟨b.bare, rfl, ?_, hentry.trans hce⟩
        rw [← hguest]
        simp [Block.isGuest, Block.isPatch, Block.isRegionEntry, Block.bare, hentry, hpatch]
      · exact ⟨c, hc, hguest, hce⟩ }

/-! ## Cutting a block -/

/-- Handing edges of one block over to another one. -/
theorem foldlM_moveEdge (l : List Slot) (hnodup : l.Nodup) (h : Linked r)
    (ht : ∃ b, r.block? t = some b) (hl : ∀ u ∈ l, u ∈ r.succs s) :
    ∃ r', l.foldlM (fun r u => do (← r.removeEdge s u).addEdge t u) r = Except.ok r' ∧ Linked r' ∧
      SameBlocks r r' ∧ ∀ x y, y ∈ r'.succs x ↔
        y ∈ r.succs x ∧ ¬ (x = s ∧ y ∈ l) ∨ x = t ∧ y ∈ l := by
  induction l generalizing r with
  | nil => exact ⟨r, rfl, h, .refl r, by simp⟩
  -- The first edge moves, and the others are still at `s`.
  | cons u l ih =>
    obtain ⟨hu, hnodup⟩ := List.nodup_cons.1 hnodup
    obtain ⟨r₁, hok₁, h₁, hsame₁, hmem₁⟩ := removeEdge_spec h (hl u List.mem_cons_self)
    obtain ⟨b₁, hb₁⟩ := hsame₁.live.2 ht
    obtain ⟨r₂, hok₂, h₂, hsame₂, hmem₂⟩ := addEdge_spec h₁ hb₁
      (hsame₁.live.2 (h.live s u (hl u List.mem_cons_self)))
    have hsame := hsame₁.trans hsame₂
    obtain ⟨r', hok, h', hsame', hmem⟩ := ih hnodup h₂ (hsame.live.2 ht) fun v hv => by
      refine (hmem₂ s v).2 (.inl ((hmem₁ s v).2 ⟨hl v (List.mem_cons_of_mem _ hv), ?_⟩))
      rintro ⟨_, rfl⟩
      exact hu hv
    refine ⟨r', ?_, h', hsame.trans hsame', fun x y => ?_⟩
    · rw [List.foldlM_cons]
      change ((r.removeEdge s u >>= fun r => r.addEdge t u) >>= _) = _
      rw [hok₁]
      change (r₁.addEdge t u >>= _) = _
      rw [hok₂]
      exact hok
    · rw [hmem, hmem₂, hmem₁]
      grind

/-- What is done with the edges of a block that is cut inside, once its halves are in place. -/
theorem splitAt_eq (hs : r.block? s = some b) (hguest : b.isGuest = true)
    (hpos : b.position? addr = some i) (hlt : b.entry < addr)
    (hput : (r.setBlock s (b.splitAt i).1).insertBlock (b.splitAt i).2 = (r', t)) :
    r.splitAt s addr = (do
      let r ← b.succs.foldlM (fun r u => do (← r.removeEdge s u).addEdge t u) r'
      return (← r.addEdge s t, t)) := by
  unfold splitAt
  rw [block_eq_ok hs]
  change (if (!b.isGuest) = true then _ else _) = _
  rw [hguest, if_neg (by simp)]
  simp only [hpos]
  rw [if_neg (UInt32.not_le.2 hlt)]
  let put := (r.setBlock s (b.splitAt i).1).insertBlock (b.splitAt i).2
  change (b.succs.foldlM (fun r u => do (← r.removeEdge s u).addEdge put.2 u) put.1 >>=
    fun r => do return (← r.addEdge s put.2, put.2)) = _
  rw [show put = (r', t) from hput]

/-- The region `r'` after block `b` at `s` was cut before its word `i`, at address `addr`. The second
half, which is in the free slot `t`, has the edges of the block, and the first half goes on there. -/
structure Cut (r r' : Region) (s t : Slot) (addr : UInt32) (b : Block) (i : Nat) : Prop where
  linked : Linked r'
  free : r.bare? t = none
  tail_at : r'.bare? t = some (b.splitAt i).2
  head_at : r'.bare? s = some (b.splitAt i).1.bare
  other : ∀ x, x ≠ s → x ≠ t → r'.bare? x = r.bare? x
  succ_iff : ∀ x y, y ∈ r'.succs x ↔
    y ∈ r.succs x ∧ x ≠ s ∨ x = t ∧ y ∈ r.succs s ∨ x = s ∧ y = t
  at_eq : ∀ x, r'.blockAt? x = if x = addr then some t else r.blockAt? x
  entryAddr : r'.entryAddr = r.entryAddr

/-- Each block after the cut is one of the halves or was there before. -/
theorem Cut.cases (h : Cut r r' s t addr b i) (hx : r'.bare? x = some a) :
    x = s ∧ a = (b.splitAt i).1.bare ∨ x = t ∧ a = (b.splitAt i).2 ∨
      x ≠ s ∧ x ≠ t ∧ r.bare? x = some a := by
  by_cases hxs : x = s
  · rw [hxs, h.head_at, Option.some.injEq] at hx
    exact .inl ⟨hxs, hx.symm⟩
  · by_cases hxt : x = t
    · rw [hxt, h.tail_at, Option.some.injEq] at hx
      exact .inr (.inl ⟨hxt, hx.symm⟩)
    · exact .inr (.inr ⟨hxs, hxt, h.other x hxs hxt ▸ hx⟩)

/-- A block from before the cut is not the second half. -/
theorem Cut.ne_tail (h : Cut r r' s t addr b i) (hx : r.bare? x = some a) : x ≠ t := by
  rintro rfl
  cases h.free.symm.trans hx

/-- Cutting a block inside. -/
theorem splitAt_spec (h : Linked r) (hs : r.block? s = some b) (hguest : b.isGuest = true)
    (hpos : b.position? addr = some i) (hlt : b.entry < addr) (hmark : addr ≠ entryMark) :
    ∃ r' t, r.splitAt s addr = .ok (r', t) ∧ Cut r r' s t addr b i := by
  obtain ⟨_, haddr, _⟩ := Block.position?_eq_some hpos
  let r₁ := r.setBlock s (b.splitAt i).1
  have h₁ : Linked r₁ := linked_setBlock h hs rfl rfl rfl rfl
  obtain ⟨r₂, t, hok₂, h₂, hnone₁, ht₂, hother₂, hsuccs₂, hat₂, hentry₂⟩ :=
    insertBlock_spec h₁ (b := (b.splitAt i).2) ⟨rfl, rfl⟩
  have hst : s ≠ t := by
    rintro rfl
    rw [block?_setBlock hs, if_pos rfl] at hnone₁
    cases hnone₁
  have hnone : r.block? t = none := by
    rwa [block?_setBlock hs, if_neg hst.symm] at hnone₁
  -- The first half keeps the edges of the block until they are moved.
  have hsuccs : ∀ x, r₂.succs x = r.succs x := by
    intro x
    rw [hsuccs₂, succs_setBlock hs]
    split
    · rename_i hx
      rw [hx, succs_of_block hs]
      rfl
    · rfl
  obtain ⟨r₃, hok₃, h₃, hsame₃, hmem₃⟩ := foldlM_moveEdge (r.succs s) (h.sorted s).nodup h₂
    ⟨_, ht₂⟩ (fun u hu => hsuccs s ▸ hu)
  have hs₂ : r₂.block? s = some (b.splitAt i).1 := by
    rw [hother₂ s hst, block?_setBlock hs, if_pos rfl]
  obtain ⟨b₃, hb₃⟩ := hsame₃.live.2 ⟨_, hs₂⟩
  obtain ⟨r', hok, h', hsame', hmem⟩ := addEdge_spec h₃ hb₃ (hsame₃.live.2 ⟨_, ht₂⟩)
  have hsame := hsame₃.trans hsame'
  have htail : (b.splitAt i).2.isGuest = true ∧ (b.splitAt i).2.entry = addr := by
    refine ⟨?_, haddr⟩
    have : (wordAddr b.entry i == entryMark) = false := by simpa [haddr] using hmark
    simp [Block.isGuest, Block.isPatch, Block.isRegionEntry, Block.splitAt, this]
  refine ⟨r', t, ?_, h', congrArg (Option.map Block.bare) hnone, ?_, ?_, fun x hxs hxt => ?_,
    fun x y => ?_, fun x => ?_, ?_⟩
  · rw [splitAt_eq hs hguest hpos hlt hok₂, ← succs_of_block hs, hok₃]
    change (r₃.addEdge s t >>= _) = _
    rw [hok]
    rfl
  · rw [hsame.bare, bare?_of_block ht₂]
    rfl
  · rw [hsame.bare, bare?_of_block hs₂]
  · rw [hsame.bare]
    unfold bare?
    rw [hother₂ x hxt, block?_setBlock hs, if_neg hxs]
  · rw [hmem, hmem₃, hsuccs]
    grind
  · rw [hsame.blockAt?, hat₂, htail.1, htail.2]
    simp only [true_and]
    rfl
  · rw [hsame.entryAddr, hentry₂]
    rfl

/-! ## Resolving an overlap -/

/-- A guest block starts inside a block with a lower address. -/
structure Overlap (r : Region) (outer inner : Slot) (addr : UInt32) (b : Block) (i : Nat) :
    Prop where
  inner_at : r.blockAt? addr = some inner
  outer_at : r.blockAt? b.entry = some outer
  block : r.block? outer = some b
  lt : b.entry < addr
  position : b.position? addr = some i
  not_delay : b.isDelaySlot addr = false

theorem overlap_of_findOverlap (h : Linked r) (hfind : r.findOverlap = some (s, t)) :
    ∃ addr b i, Overlap r s t addr b i := by
  unfold findOverlap at hfind
  obtain ⟨⟨addr, inner⟩, hmem, hsome⟩ := List.exists_of_findSome?_eq_some hfind
  obtain ⟨⟨lower, outer⟩, hp, heq⟩ := Option.map_eq_some_iff.1 hsome
  cases heq
  have hover := List.find?_some hp
  have hlower := List.mem_reverse.1 (List.mem_of_find?_eq_some hp)
  have hlt : lower < addr := by
    have := List.all_takeWhile (l := r.byAddr) (p := fun q : UInt32 × Slot => decide (q.1 < addr))
    simpa using List.all_eq_true.1 this _ hlower
  have houter := (mem_byAddr h.addr_sorted).1 ((List.takeWhile_sublist _).subset hlower)
  obtain ⟨c, hc, _, hce⟩ := h.addr_guest _ _ houter
  obtain ⟨b, hb, rfl⟩ := exists_block_of_bare? hc
  have hce : b.entry = lower := hce
  simp only [overlaps, hb, Bool.and_eq_true, Bool.not_eq_true', Block.contains] at hover
  obtain ⟨i, hi⟩ := Option.isSome_iff_exists.1 hover.1
  exact ⟨addr, b, i, (mem_byAddr h.addr_sorted).1 hmem, hce ▸ houter, hb, hce ▸ hlt, hi, hover.2⟩

/-- The two blocks of an overlap start at different addresses. -/
theorem Overlap.inner_ne (ho : Overlap r outer inner addr b i) (h : Linked r) : inner ≠ outer := by
  rintro rfl
  exact UInt32.ne_of_lt ho.lt (h.blockAt?_inj ho.outer_at ho.inner_at)

/-- The block of an overlap can be cut, and the second half is found where `inner` was. -/
theorem splitAt_overlap (h : Linked r) (ho : Overlap r outer inner addr b i) :
    ∃ r' t, (r.eraseBlockAt addr).splitAt outer addr = .ok (r', t) ∧
      Cut r r' outer t addr b i := by
  -- The block at the cut is a guest block, so the address there is not the mark.
  obtain ⟨c, hc, hcguest, rfl⟩ := h.addr_guest _ _ ho.inner_at
  obtain ⟨e, he, heguest, -⟩ := h.addr_guest _ _ ho.outer_at
  rw [bare?_of_block ho.block, Option.some.injEq] at he
  subst he
  have hmark : c.entry ≠ entryMark := by
    simp only [Block.isGuest, Block.isRegionEntry, Bool.and_eq_true, Bool.not_eq_true',
      beq_eq_false_iff_ne] at hcguest
    exact hcguest.2
  obtain ⟨r', t, hok, hcut⟩ := splitAt_spec (linked_eraseBlockAt h c.entry) ho.block
    (Block.isGuest_bare b ▸ heguest) ho.position ho.lt hmark
  refine ⟨r', t, hok, { hcut with at_eq := fun x => ?_ }⟩
  rw [hcut.at_eq]
  split
  · rfl
  · rename_i hx
    rw [blockAt?_eraseBlockAt h.addr_sorted, if_neg hx]

/-- The two blocks of an overlap are not the second half. -/
theorem Overlap.ne_tail (ho : Overlap r outer inner addr b i) (h : Linked r)
    (hcut : Cut r r' outer tail addr b i) : outer ≠ tail ∧ inner ≠ tail := by
  obtain ⟨c, hc, -⟩ := h.addr_guest _ _ ho.inner_at
  exact ⟨hcut.ne_tail (bare?_of_block ho.block), hcut.ne_tail hc⟩

/-- After the cut only the second half is found where `inner` was. -/
theorem Overlap.blockAt?_cut (ho : Overlap r outer inner addr b i) (h : Linked r)
    (hcut : Cut r r' outer t addr b i) :
    (∀ x, r'.blockAt? x ≠ some inner) ∧ ∀ x, r'.blockAt? x = some t → x = addr := by
  refine ⟨fun x hx => ?_, fun x hx => ?_⟩
  · rw [hcut.at_eq] at hx
    split at hx
    · exact h.blockAt?_ne_of_free hcut.free (Option.some.inj hx ▸ ho.inner_at)
    · rename_i hne
      exact hne (h.blockAt?_inj hx ho.inner_at)
  · rw [hcut.at_eq] at hx
    split at hx
    · assumption
    · exact absurd hx (h.blockAt?_ne_of_free hcut.free)

/-- The second half, at `tail`, takes the place of the block at `inner`, whose predecessors are
`preds`. -/
def mergeInto (r : Region) (inner tail : Slot) (preds : List Slot) : Except GraphError Region := do
  let removed ← r.removeBlock inner
  let new ← removed.1.block tail
  let r := removed.1.setBlock tail { new with
    indirectTargets :=
      Ascending.union UInt32.toNat new.indirectTargets removed.2.indirectTargets }
  let r ← (preds.filter (· != inner)).foldlM (fun r p => r.addEdge p tail) r
  r.wireBlock tail

/-- The block at `inner` takes the place of the second half of `outer`, at `tail`. -/
def yieldTo (r : Region) (outer inner tail : Slot) (addr : UInt32) : Except GraphError Region := do
  let removed ← r.removeBlock tail
  (removed.1.setBlockAt addr inner).addEdge outer inner

/-- The other block is removed, and the second half takes over the known targets of its jump. -/
private theorem exists_absorbed (h : Linked r) (hc : r.block? inner = some c)
    (hd : r.block? tail = some d) (hne : inner ≠ tail) (hat : ∀ x, r.blockAt? x ≠ some inner) :
    ∃ (r₁ : Region) (dup d₁ : Block), r.removeBlock inner = .ok (r₁, dup) ∧
      r₁.block? tail = some d₁ ∧
      let r₂ := r₁.setBlock tail { d₁ with
        indirectTargets := Ascending.union UInt32.toNat d₁.indirectTargets dup.indirectTargets }
      Linked r₂ ∧
      (∀ x, r₂.bare? x = if x = inner then none else if x = tail then some { d.bare with
        indirectTargets := Ascending.union UInt32.toNat d.indirectTargets c.indirectTargets }
        else r.bare? x) ∧
      (∀ x y, y ∈ r₂.succs x ↔ y ∈ r.succs x ∧ x ≠ inner ∧ y ≠ inner) ∧
      (∀ x, r₂.blockAt? x = r.blockAt? x) ∧ r₂.entryAddr = r.entryAddr := by
  obtain ⟨r₁, dup, hok₁, hdup, h₁, hbare₁, hmem₁, hat₁, hentry₁⟩ := removeBlock_spec h hc
  have hb₁ : r₁.bare? tail = some d.bare := by
    rw [hbare₁, if_neg hne.symm]
    exact bare?_of_block hd
  obtain ⟨d₁, hd₁, hdbare⟩ := exists_block_of_bare? hb₁
  -- Removing edges changed neither the code nor the known targets of the two blocks.
  have hdt : d₁.indirectTargets = d.indirectTargets := (congrArg Block.indirectTargets hdbare :)
  have hct : dup.indirectTargets = c.indirectTargets := (congrArg Block.indirectTargets hdup :)
  refine ⟨r₁, dup, d₁, hok₁, hd₁, linked_setBlock h₁ hd₁ rfl rfl rfl rfl, fun x => ?_, fun x y => ?_,
    fun x => ?_, hentry₁⟩
  · rw [bare?, block?_setBlock hd₁]
    by_cases hxt : x = tail
    · rw [if_pos hxt, if_neg (hxt ▸ hne.symm), if_pos hxt, Option.map_some]
      simp only [← hdt, ← hct, ← hdbare]
      rfl
    · rw [if_neg hxt, if_neg hxt]
      exact hbare₁ x
  · have hsame : ∀ x, (if x = tail then d₁.succs else r₁.succs x) = r₁.succs x := by
      intro x
      split
      · rename_i hx
        rw [hx, succs_of_block hd₁]
      · rfl
    rw [succs_setBlock hd₁, hsame]
    exact hmem₁ x y
  · exact (hat₁ x).trans (if_neg (hat x))

/-- The region `r'` after the second half, which is `d`, took the place of the block at `inner`. It
is `e` then, which also knows the targets of the other block. -/
structure MergedInto (r r' : Region) (inner tail : Slot) (d e : Block) : Prop where
  linked : Linked r'
  block_eq : ∃ targets, e = { d.bare with
    indirectTargets := Ascending.union UInt32.toNat d.indirectTargets targets }
  bare_eq : ∀ x, r'.bare? x = if x = inner then none else if x = tail then some e else r.bare? x
  succ_iff : ∀ x y, y ∈ r'.succs x ↔ (y ∈ r.succs x ∧ x ≠ inner ∧ y ≠ inner) ∨
    (inner ∈ r.succs x ∧ x ≠ inner ∧ y = tail) ∨
    x = tail ∧ ∃ addr ∈ e.staticTargets, r.blockAt? addr = some y
  at_eq : ∀ x, r'.blockAt? x = r.blockAt? x
  entryAddr : r'.entryAddr = r.entryAddr

/-- The second half takes over the edges of the other block and the known targets of its jump. -/
theorem merge_spec (h : Linked r) (hc : r.block? inner = some c) (hd : r.block? tail = some d)
    (hne : inner ≠ tail) (hat : ∀ x, r.blockAt? x ≠ some inner) :
    ∃ r' e, r.mergeInto inner tail c.preds = .ok r' ∧ MergedInto r r' inner tail d e := by
  obtain ⟨r₁, dup, d₁, hok₁, hd₁, h₂, hbare₂, hmem₂, hat₂, hentry₂⟩ := exists_absorbed h hc hd hne hat
  let e : Block := { d.bare with
    indirectTargets := Ascending.union UInt32.toNat d.indirectTargets c.indirectTargets }
  let r₂ := r₁.setBlock tail { d₁ with
    indirectTargets := Ascending.union UInt32.toNat d₁.indirectTargets dup.indirectTargets }
  -- A block that goes to `inner` is still there once `inner` is gone.
  have hpreds : ∀ p, p ∈ c.preds.filter (· != inner) ↔ p ≠ inner ∧ inner ∈ r.succs p := by
    intro p
    rw [List.mem_filter, ← preds_of_block hc, ← h.succ_iff]
    simp [and_comm]
  have htail : ∃ b, r₂.block? tail = some b := ⟨_, (block?_setBlock hd₁ _ tail).trans (if_pos rfl)⟩
  obtain ⟨r₃, hok₃, h₃, hsame₃, hmem₃⟩ := foldlM_addEdge (fun p => (p, tail)) _ h₂ fun p hp => by
    obtain ⟨hpi, hpe⟩ := (hpreds p).1 hp
    refine ⟨?_, htail⟩
    by_cases hpt : p = tail
    · rw [hpt]
      exact htail
    · rw [exists_block_iff_bare?, hbare₂, if_neg hpi, if_neg hpt, ← exists_block_iff_bare?]
      exact h.source_live hpe
  obtain ⟨d₃, hd₃⟩ := hsame₃.live.2 htail
  have hd₃e : d₃.bare = e := by
    have hbare := hsame₃.bare tail
    rw [bare?_of_block hd₃, hbare₂, if_neg hne.symm, if_pos rfl] at hbare
    exact Option.some.inj hbare
  obtain ⟨r', hok', h', hsame', hmem'⟩ := wireBlock_spec h₃ hd₃
  have hsame := hsame₃.trans hsame'
  refine ⟨r', e, ?_, h', ⟨_, rfl⟩, fun x => ?_, fun x y => ?_, fun x => ?_, ?_⟩
  · change (r.removeBlock inner >>= fun q => _) = _
    rw [hok₁]
    change (r₁.block tail >>= fun b => _) = _
    rw [block_eq_ok hd₁]
    change ((c.preds.filter (· != inner)).foldlM (fun r p => r.addEdge p tail) r₂ >>= fun r => _) = _
    rw [hok₃]
    exact hok'
  · rw [hsame.bare]
    exact hbare₂ x
  · -- The edges that are left, those that led to `inner`, and those of the code of the second half.
    have hadded : (∃ p ∈ c.preds.filter (· != inner), (p, tail) = (x, y)) ↔
        inner ∈ r.succs x ∧ x ≠ inner ∧ y = tail := by
      constructor
      · rintro ⟨p, hp, heq⟩
        obtain ⟨rfl, rfl⟩ := Prod.mk.inj heq
        obtain ⟨hpi, hpe⟩ := (hpreds p).1 hp
        exact ⟨hpe, hpi, rfl⟩
      · rintro ⟨hxe, hxi, rfl⟩
        exact ⟨x, (hpreds x).2 ⟨hxi, hxe⟩, rfl⟩
    have hat₃ : ∀ addr, r₃.blockAt? addr = r.blockAt? addr := fun addr =>
      (hsame₃.blockAt? addr).trans (hat₂ addr)
    have htargets : d₃.staticTargets = e.staticTargets := hd₃e ▸ rfl
    rw [hmem', hmem₃, hmem₂, hadded, htargets, or_assoc]
    simp only [hat₃]
  · rw [hsame.blockAt?]
    exact hat₂ x
  · rw [hsame.entryAddr]
    exact hentry₂

/-- The region `r'` after the block at `inner` took the place of the second half of `outer`. -/
structure YieldedTo (r r' : Region) (outer inner tail : Slot) (addr : UInt32) : Prop where
  linked : Linked r'
  bare_eq : ∀ x, r'.bare? x = if x = tail then none else r.bare? x
  succ_iff : ∀ x y, y ∈ r'.succs x ↔ (y ∈ r.succs x ∧ x ≠ tail ∧ y ≠ tail) ∨ x = outer ∧ y = inner
  at_eq : ∀ x, r'.blockAt? x = if x = addr then some inner else r.blockAt? x
  entryAddr : r'.entryAddr = r.entryAddr

/-- The other block takes the place of the second half. -/
theorem yield_spec (h : Linked r) (ha : ∃ a, r.block? outer = some a)
    (hc : r.bare? inner = some c) (hguest : c.isGuest = true) (hd : r.block? tail = some d)
    (hto : tail ≠ outer) (hti : tail ≠ inner) (hat : ∀ x, r.blockAt? x = some tail → x = c.entry) :
    ∃ r', r.yieldTo outer inner tail c.entry = .ok r' ∧
      YieldedTo r r' outer inner tail c.entry := by
  obtain ⟨r₁, gone, hok₁, -, h₁, hbare₁, hmem₁, hat₁, hentry₁⟩ := removeBlock_spec h hd
  have hc₁ : r₁.bare? inner = some c := by
    rw [hbare₁, if_neg hti.symm]
    exact hc
  -- The address is given to `inner` before the edge is made.
  let r₂ := r₁.setBlockAt c.entry inner
  have h₂ : Linked r₂ := linked_setBlockAt h₁ hc₁ hguest
  obtain ⟨a₂, ha₂⟩ : ∃ a, r₂.block? outer = some a := by
    rw [exists_block_iff_bare?]
    change ∃ b, r₁.bare? outer = some b
    rw [hbare₁, if_neg hto.symm, ← exists_block_iff_bare?]
    exact ha
  obtain ⟨r', hok, h', hsame, hmem⟩ := addEdge_spec h₂ ha₂
    (exists_block_iff_bare?.2 ⟨c, show r₂.bare? inner = some c from hc₁⟩)
  refine ⟨r', ?_, h', fun x => ?_, fun x y => ?_, fun x => ?_, ?_⟩
  · change (r.removeBlock tail >>= fun q => _) = _
    rw [hok₁]
    exact hok
  · rw [hsame.bare]
    exact hbare₁ x
  · rw [hmem]
    change y ∈ r₁.succs x ∨ _ ↔ _
    rw [hmem₁]
  · rw [hsame.blockAt?, blockAt?_setBlockAt h₁.addr_sorted]
    split
    · rfl
    · rename_i hx
      rw [hat₁, if_neg fun h => hx (hat x h)]
  · rw [hsame.entryAddr]
    exact hentry₁

/-- What resolving an overlap leaves behind. `kept` is the block that stands at the address of the
cut from then on: `inner` or the second half of `outer`. -/
structure Resolved (r r' : Region) (outer inner kept : Slot) (addr : UInt32) (b : Block) (i : Nat) :
    Prop where
  linked : Linked r'
  at_eq : ∀ x, r'.blockAt? x = if x = addr then some kept else r.blockAt? x
  outer_at : r'.bare? outer = some (b.splitAt i).1.bare
  kept_at : ∃ c e, r.bare? inner = some c ∧ r'.bare? kept = some e ∧ e.words = c.words
  kept_new : kept = inner ∨ r.bare? kept = none ∧ r'.bare? inner = none
  other : ∀ x, x ≠ outer → x ≠ inner → x ≠ kept → r'.bare? x = r.bare? x

/-- What is done once the block is cut. -/
theorem splitOverlap_eq (hc : r.block? inner = some c)
    (hcut : (r.eraseBlockAt c.entry).splitAt outer c.entry = .ok (r', tail))
    (ha : r'.block? inner = some a) (hd : r'.block? tail = some d) :
    r.splitOverlap outer inner = if d.words = a.words then r'.mergeInto inner tail a.preds
      else r'.yieldTo outer inner tail c.entry := by
  unfold splitOverlap
  rw [block_eq_ok hc]
  change ((r.eraseBlockAt c.entry).splitAt outer c.entry >>= fun p => _) = _
  rw [hcut]
  change (r'.block inner >>= fun p => _) = _
  rw [block_eq_ok ha]
  change (r'.block tail >>= fun p => _) = _
  rw [block_eq_ok hd]
  rfl

/-- One of the two blocks at the cut takes the place of the other: the second half, `d`, if it has the
words of the other block, `c`, and that block if it has not. -/
theorem splitOverlap_cases (h : Linked r) (ho : Overlap r outer inner addr b i) :
    ∃ r₁ tail c d, (r.eraseBlockAt addr).splitAt outer addr = .ok (r₁, tail) ∧
      Cut r r₁ outer tail addr b i ∧ r₁.block? inner = some c ∧ r₁.block? tail = some d ∧
      r.bare? inner = some c.bare ∧ d.bare = (b.splitAt i).2 ∧ c.entry = addr ∧ ∃ r',
        r.splitOverlap outer inner = .ok r' ∧
          ((d.words = c.words ∧ ∃ e, MergedInto r₁ r' inner tail d e) ∨
            d.words ≠ c.words ∧ YieldedTo r₁ r' outer inner tail addr) := by
  obtain ⟨k, hk, hkguest, rfl⟩ := h.addr_guest _ _ ho.inner_at
  obtain ⟨old, hold, rfl⟩ := exists_block_of_bare? hk
  obtain ⟨r₁, tail, hok, hcut⟩ := splitAt_overlap h ho
  -- The three blocks are different ones: two with code before, and a new one.
  obtain ⟨hot, hit⟩ := ho.ne_tail h hcut
  have hinner : r₁.bare? inner = some old.bare := (hcut.other inner (ho.inner_ne h) hit).trans hk
  obtain ⟨c, hc, hcbare⟩ := exists_block_of_bare? hinner
  obtain ⟨d, hd, hdbare⟩ := exists_block_of_bare? hcut.tail_at
  have hrun := splitOverlap_eq hold hok hc hd
  obtain ⟨hinnerAt, htailAt⟩ := ho.blockAt?_cut h hcut
  refine ⟨r₁, tail, c, d, hok, hcut, hc, hd, hcbare ▸ hk, hdbare,
    (congrArg Block.entry hcbare :), ?_⟩
  by_cases hwords : d.words = c.words
  · obtain ⟨r', e, hmerge, hmerged⟩ := merge_spec hcut.linked hc hd hit hinnerAt
    rw [if_pos hwords] at hrun
    exact ⟨r', hrun.trans hmerge, .inl ⟨hwords, e, hmerged⟩⟩
  · obtain ⟨r', hyield, hyielded⟩ := yield_spec hcut.linked
      (exists_block_iff_bare?.2 ⟨_, hcut.head_at⟩) hinner hkguest hd hot.symm hit.symm htailAt
    rw [if_neg hwords] at hrun
    exact ⟨r', hrun.trans hyield, .inr ⟨hwords, hyielded⟩⟩

/-- An overlap can be resolved, and one block is cut for it. -/
theorem splitOverlap_spec (h : Linked r) (ho : Overlap r outer inner addr b i) :
    ∃ r' kept, (∃ p, (r.eraseBlockAt addr).splitAt outer addr = .ok p) ∧
      r.splitOverlap outer inner = .ok r' ∧ Resolved r r' outer inner kept addr b i := by
  obtain ⟨r₁, tail, c, d, hok, hcut, hc, -, hcbare, -, -, r', hrun, hcase⟩ := splitOverlap_cases h ho
  obtain ⟨hot, hit⟩ := ho.ne_tail h hcut
  have hio := ho.inner_ne h
  rcases hcase with ⟨hwords, e, hm⟩ | ⟨-, hy⟩
  · refine ⟨r', tail, ⟨_, hok⟩, hrun, hm.linked, fun x => (hm.at_eq x).trans (hcut.at_eq x), ?_,
      ⟨_, e, hcbare, ?_, ?_⟩, .inr ⟨hcut.free, ?_⟩, fun x hxo hxi hxt => ?_⟩
    · rw [hm.bare_eq, if_neg hio.symm, if_neg hot]
      exact hcut.head_at
    · rw [hm.bare_eq, if_neg hit.symm, if_pos rfl]
    · obtain ⟨targets, rfl⟩ := hm.block_eq
      exact hwords
    · rw [hm.bare_eq, if_pos rfl]
    · rw [hm.bare_eq, if_neg hxi, if_neg hxt]
      exact hcut.other x hxo hxt
  · refine ⟨r', inner, ⟨_, hok⟩, hrun, hy.linked, fun x => ?_, ?_, ⟨_, _, hcbare, ?_, rfl⟩, .inl rfl,
      fun x hxo hxi _ => ?_⟩
    · rw [hy.at_eq, hcut.at_eq]
      split <;> rfl
    · rw [hy.bare_eq, if_neg hot]
      exact hcut.head_at
    · rw [hy.bare_eq, if_neg hit]
      exact bare?_of_block hc
    · rw [hy.bare_eq]
      split
      · rename_i hxt
        rw [hxt, hcut.free]
      · rename_i hxt
        exact hcut.other x hxo hxt

end HotRegion.Region
