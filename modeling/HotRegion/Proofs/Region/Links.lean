import HotRegion.Proofs.Flow.Closure
import HotRegion.Region.Graph

/-!
# Linked graphs

Every edge of a region is kept twice, at its source and at its target. `Linked` says that the two
views agree, that edges and the address table only lead to blocks that are there, and that free
slots are free. Each change of the graph keeps it. What a change does is said through three views:
the bare block in a slot, the successors of a slot and the address table.

## Key results

- `addEdge_relink` / `removeEdge_relink`: the two blocks that a change of an edge touches
- `addEdge_spec` / `removeEdge_spec`: one edge more, one edge less, and nothing else
- `insertBlock_spec`: a block without edges in a slot that was free
- `removeBlock_spec`: a block and its edges are gone
-/

namespace HotRegion.Region

open HotRegion.Flow (Graph)
open Ascending (Sorted)

variable {r r' : Region} {s t x y : Slot} {a b : Block} {addr : UInt32}

/-! ## Views -/

/-- The part of a block that does not depend on its place in the graph. -/
def Block.bare (b : Block) : Block :=
  { entry := b.entry, words := b.words, instrs := b.instrs, decoded := b.decoded,
    patchTarget := b.patchTarget, indirectTargets := b.indirectTargets, phis := b.phis }

@[simp] theorem Block.bare_bare (b : Block) : b.bare.bare = b.bare := rfl

/-- The bare block in a slot. -/
def bare? (r : Region) (s : Slot) : Option Block := (r.block? s).map Block.bare

/-- The successors of a slot; a free slot has none. -/
def succs (r : Region) (s : Slot) : List Slot := r.flowGraph.succs s

/-- The predecessors of a slot; a free slot has none. -/
def preds (r : Region) (s : Slot) : List Slot := r.flowGraph.preds s

/-- The successors of a slot are those of its block. -/
theorem succs_of_block (h : r.block? s = some b) : r.succs s = b.succs := by
  simp [succs, flowGraph, h]

/-- The predecessors of a slot are those of its block. -/
theorem preds_of_block (h : r.block? s = some b) : r.preds s = b.preds := by
  simp [preds, flowGraph, h]

/-- An empty slot has no successors. -/
theorem succs_of_none (h : r.block? s = none) : r.succs s = [] := by
  simp [succs, flowGraph, h]

/-- An empty slot has no predecessors. -/
theorem preds_of_none (h : r.block? s = none) : r.preds s = [] := by
  simp [preds, flowGraph, h]

/-- A block without its links is there if the block is. -/
theorem bare?_of_block (h : r.block? s = some b) : r.bare? s = some b.bare := by
  simp [bare?, h]

/-- A block without its links belongs to a block. -/
theorem exists_block_of_bare? (h : r.bare? s = some a) : ∃ b, r.block? s = some b ∧ b.bare = a :=
  Option.map_eq_some_iff.1 h

/-- Asking for a block that is there succeeds. -/
theorem block_eq_ok (h : r.block? s = some b) : r.block s = .ok b := by
  simp [block, h]

/-- Only slots of the array hold blocks. -/
theorem lt_size_of_block (h : r.block? s = some b) : s < r.slots.size := by
  unfold block? at h
  rcases Nat.lt_or_ge s r.slots.size with hlt | hge
  · exact hlt
  · simp [Array.getElem?_eq_none hge] at h

/-- All blocks, listed by slot. -/
theorem mem_blocks : (s, b) ∈ r.blocks ↔ r.block? s = some b := by
  unfold blocks block?
  simp only [List.mem_filterMap, Option.map_eq_some_iff, Prod.exists, Prod.mk.injEq,
    List.mem_zipIdx_iff_getElem?, Array.getElem?_toList]
  constructor
  · rintro ⟨o, i, hi, c, rfl, rfl, rfl⟩
    simp [hi]
  · intro h
    cases ho : r.slots[s]? with
    | none => simp [ho] at h
    | some o =>
      rw [ho] at h
      exact ⟨o, s, ho, b, h, rfl, rfl⟩

/-- The slots of the blocks ascend. -/
theorem sorted_slots (r : Region) : Sorted id (r.blocks.map Prod.fst) := by
  -- They are the numbers of all slots, less those of the free ones.
  have hsub : (r.blocks.map Prod.fst).Sublist (r.slots.toList.zipIdx.map Prod.snd) := by
    unfold blocks
    generalize r.slots.toList.zipIdx = l
    induction l with
    | nil => exact .slnil
    | cons p l ih =>
      obtain ⟨_ | b, s⟩ := p
      · exact ih.cons _
      · exact ih.cons_cons _
  rw [List.zipIdx_map_snd] at hsub
  exact (List.pairwise_lt_range' 1).sublist hsub

/-- Whether the edges are symmetric can be checked on the blocks that there are. -/
theorem symmetric_of_blocks (h : ∀ p ∈ r.blocks, (∀ t ∈ p.2.succs, p.1 ∈ r.preds t) ∧
    ∀ t ∈ p.2.preds, p.1 ∈ r.succs t) (s t : Slot) : t ∈ r.succs s ↔ s ∈ r.preds t := by
  constructor
  · intro hst
    cases hb : r.block? s with
    | none =>
      rw [succs_of_none hb] at hst
      cases hst
    | some b =>
      rw [succs_of_block hb] at hst
      exact (h (s, b) (mem_blocks.2 hb)).1 t hst
  · intro hst
    cases hb : r.block? t with
    | none =>
      rw [preds_of_none hb] at hst
      cases hst
    | some b =>
      rw [preds_of_block hb] at hst
      exact (h (t, b) (mem_blocks.2 hb)).2 s hst

/-- The nodes of the graph are the slots with blocks. -/
theorem mem_nodes : s ∈ r.flowGraph.nodes ↔ ∃ b, r.block? s = some b := by
  simp only [flowGraph, List.mem_map, Prod.exists, mem_blocks]
  constructor
  · rintro ⟨s', b, h, rfl⟩
    exact ⟨b, h⟩
  · rintro ⟨b, h⟩
    exact ⟨s, b, h, rfl⟩

/-! ## The address table -/

/-- The address table after an entry is put in. -/
theorem blockAt?_setBlockAt (h : Sorted (fun p : UInt32 × Slot => p.1.toNat) r.byAddr)
    (addr : UInt32) (s : Slot) (x : UInt32) :
    (r.setBlockAt addr s).blockAt? x = if x = addr then some s else r.blockAt? x :=
  Ascending.lookup_put (fun _ _ => UInt32.toNat_inj.1) h addr s x

/-- The address table after an entry is taken out. -/
theorem blockAt?_eraseBlockAt (h : Sorted (fun p : UInt32 × Slot => p.1.toNat) r.byAddr)
    (addr x : UInt32) :
    (r.eraseBlockAt addr).blockAt? x = if x = addr then none else r.blockAt? x := by
  have hfilter : Sorted (fun p : UInt32 × Slot => p.1.toNat) (r.byAddr.filter (·.1 != addr)) :=
    List.Pairwise.filter _ h
  unfold blockAt? eraseBlockAt
  ext t
  rw [Ascending.lookup_eq_some_iff hfilter, List.mem_filter]
  by_cases hx : x = addr
  · simp [hx]
  · simp [hx, Ascending.lookup_eq_some_iff h]

/-- The list by addresses says where a block is if it is in order. -/
theorem mem_byAddr (h : Sorted (fun p : UInt32 × Slot => p.1.toNat) r.byAddr) :
    (addr, s) ∈ r.byAddr ↔ r.blockAt? addr = some s :=
  (Ascending.lookup_eq_some_iff h).symm

/-! ## The invariant -/

/-- The two views of the edges agree, edges and addresses lead to blocks that are there, and free
slots are free. -/
structure Linked (r : Region) : Prop where
  succ_iff : ∀ s t, t ∈ r.succs s ↔ s ∈ r.preds t
  live : ∀ s t, t ∈ r.succs s → ∃ b, r.block? t = some b
  sorted : ∀ s, Sorted id (r.succs s)
  sorted_preds : ∀ s, Sorted id (r.preds s)
  free_dead : ∀ s ∈ r.free, s < r.slots.size ∧ r.block? s = none
  free_nodup : r.free.Nodup
  addr_sorted : Sorted (fun p : UInt32 × Slot => p.1.toNat) r.byAddr
  addr_guest : ∀ addr s, r.blockAt? addr = some s →
    ∃ b, r.bare? s = some b ∧ b.isGuest = true ∧ b.entry = addr

/-- An edge comes from a block. -/
theorem Linked.source_live (_h : Linked r) (hst : t ∈ r.succs s) : ∃ b, r.block? s = some b := by
  cases hb : r.block? s with
  | none => simp [succs_of_none hb] at hst
  | some b => exact ⟨b, rfl⟩

/-- No edge comes from a free slot or leads to one. -/
theorem Linked.ne_of_free (h : Linked r) (hfree : r.bare? u = none) (hst : t ∈ r.succs s) :
    s ≠ u ∧ t ≠ u := by
  have hnone : ∀ {x}, (∃ b, r.block? x = some b) → x ≠ u := by
    rintro _ ⟨b, hb⟩ rfl
    rw [bare?_of_block hb] at hfree
    cases hfree
  exact ⟨hnone (h.source_live hst), hnone (h.live s t hst)⟩

/-- No free slot is listed by address. -/
theorem Linked.blockAt?_ne_of_free (h : Linked r) (hfree : r.bare? u = none) :
    r.blockAt? addr ≠ some u := by
  intro hu
  obtain ⟨b, hb, -⟩ := h.addr_guest addr u hu
  rw [hfree] at hb
  cases hb

/-- A block starts at one address only. -/
theorem Linked.blockAt?_inj {addr' : UInt32} (h : Linked r) (ht : r.blockAt? addr = some s)
    (ht' : r.blockAt? addr' = some s) : addr = addr' := by
  obtain ⟨b, hb, -, rfl⟩ := h.addr_guest addr s ht
  obtain ⟨c, hc, -, rfl⟩ := h.addr_guest addr' s ht'
  rw [hb, Option.some.injEq] at hc
  rw [hc]

/-- The flow graph of a linked region is well formed if it has its entry. -/
theorem Linked.wellFormed (h : Linked r) (hentry : r.block? entrySlot = some b) :
    r.flowGraph.WellFormed where
  entry_mem := mem_nodes.2 ⟨b, hentry⟩
  sorted := r.sorted_slots
  mem_preds a b := (h.succ_iff a b).symm
  source_mem _ _ hab := mem_nodes.2 (h.source_live hab)
  target_mem a b hab := mem_nodes.2 (h.live a b hab)

/-- A region that differs from another one in its edges only. -/
structure SameBlocks (r r' : Region) : Prop where
  bare : ∀ s, r'.bare? s = r.bare? s
  byAddr : r'.byAddr = r.byAddr
  entryAddr : r'.entryAddr = r.entryAddr
  free : r'.free = r.free
  size : r'.slots.size = r.slots.size

/-- Every region has the blocks that it has. -/
theorem SameBlocks.refl (r : Region) : SameBlocks r r := ⟨fun _ => rfl, rfl, rfl, rfl, rfl⟩

/-- Regions with the same blocks as a third one have the same. -/
theorem SameBlocks.trans {r'' : Region} (h : SameBlocks r r') (h' : SameBlocks r' r'') :
    SameBlocks r r'' :=
  ⟨fun s => (h'.bare s).trans (h.bare s), h'.byAddr.trans h.byAddr,
    h'.entryAddr.trans h.entryAddr, h'.free.trans h.free, h'.size.trans h.size⟩

/-- The same blocks are found by their addresses. -/
theorem SameBlocks.blockAt? (h : SameBlocks r r') (addr : UInt32) :
    r'.blockAt? addr = r.blockAt? addr := by
  simp [Region.blockAt?, h.byAddr]

/-- A slot has a block if it has one without links. -/
theorem exists_block_iff_bare? : (∃ b, r.block? s = some b) ↔ ∃ b, r.bare? s = some b := by
  constructor
  · rintro ⟨b, hb⟩
    exact ⟨_, bare?_of_block hb⟩
  · rintro ⟨b, hb⟩
    obtain ⟨c, hc, _⟩ := exists_block_of_bare? hb
    exact ⟨c, hc⟩

/-- The same slots have blocks. -/
theorem SameBlocks.live (h : SameBlocks r r') :
    (∃ b, r'.block? s = some b) ↔ ∃ b, r.block? s = some b := by
  rw [exists_block_iff_bare?, exists_block_iff_bare?, h.bare]

/-- A slot is empty if it is so without links. -/
private theorem block?_eq_none_iff : r.block? s = none ↔ r.bare? s = none := by
  simp [bare?]

/-- A change of edges that keeps the two views in step keeps the graph linked. -/
theorem Linked.of_sameBlocks (h : Linked r) (hsame : SameBlocks r r')
    (hiff : ∀ s t, t ∈ r'.succs s ↔ s ∈ r'.preds t)
    (hlive : ∀ s t, t ∈ r'.succs s → ∃ b, r.block? t = some b)
    (hsorted : ∀ s, Sorted id (r'.succs s)) (hpreds : ∀ s, Sorted id (r'.preds s)) :
    Linked r' where
  succ_iff := hiff
  live s t hst := hsame.live.2 (hlive s t hst)
  sorted := hsorted
  sorted_preds := hpreds
  free_dead s hs := by
    rw [hsame.free] at hs
    obtain ⟨hlt, hnone⟩ := h.free_dead s hs
    refine ⟨by rw [hsame.size]; exact hlt, ?_⟩
    rw [block?_eq_none_iff, hsame.bare, ← block?_eq_none_iff]
    exact hnone
  free_nodup := by rw [hsame.free]; exact h.free_nodup
  addr_sorted := by rw [hsame.byAddr]; exact h.addr_sorted
  addr_guest addr s hs := by
    rw [hsame.blockAt?] at hs
    rw [hsame.bare]
    exact h.addr_guest addr s hs

/-! ## Changes of the address table -/

/-- Taking an address out of the list breaks no link. -/
theorem linked_eraseBlockAt (h : Linked r) (addr : UInt32) : Linked (r.eraseBlockAt addr) where
  succ_iff := h.succ_iff
  live := h.live
  sorted := h.sorted
  sorted_preds := h.sorted_preds
  free_dead := h.free_dead
  free_nodup := h.free_nodup
  addr_sorted := List.Pairwise.filter _ h.addr_sorted
  addr_guest x s hs := by
    rw [blockAt?_eraseBlockAt h.addr_sorted] at hs
    split at hs
    · cases hs
    · exact h.addr_guest x s hs

/-- Listing a guest block at its entry breaks no link. -/
theorem linked_setBlockAt (h : Linked r) (hb : r.bare? s = some b) (hguest : b.isGuest = true) :
    Linked (r.setBlockAt b.entry s) where
  succ_iff := h.succ_iff
  live := h.live
  sorted := h.sorted
  sorted_preds := h.sorted_preds
  free_dead := h.free_dead
  free_nodup := h.free_nodup
  addr_sorted := h.addr_sorted.put (b.entry, s)
  addr_guest x t ht := by
    rw [blockAt?_setBlockAt h.addr_sorted] at ht
    split at ht
    · rename_i hx
      cases ht
      exact ⟨b, hb, hguest, hx.symm⟩
    · exact h.addr_guest x t ht

/-! ## Replacing a block -/

/-- The blocks after one is replaced. -/
theorem block?_setBlock (h : r.block? s = some a) (b : Block) (x : Slot) :
    (r.setBlock s b).block? x = if x = s then some b else r.block? x := by
  have hlt := lt_size_of_block h
  unfold block? setBlock
  rw [Array.getElem?_setIfInBounds]
  by_cases hxs : x = s
  · subst hxs
    simp [hlt]
  · simp [hxs, Ne.symm hxs]

/-- A replacement with the same code changes the edges at the slot only. -/
theorem sameBlocks_setBlock (h : r.block? s = some a) (hbare : b.bare = a.bare) :
    SameBlocks r (r.setBlock s b) where
  bare x := by
    unfold bare?
    rw [block?_setBlock h]
    split
    · rename_i hx
      rw [hx, h, Option.map_some, Option.map_some, hbare]
    · rfl
  byAddr := rfl
  entryAddr := rfl
  free := rfl
  size := by simp [setBlock]

/-- Putting a block in place of another changes the successors of that slot alone. -/
theorem succs_setBlock (h : r.block? s = some a) (b : Block) (x : Slot) :
    (r.setBlock s b).succs x = if x = s then b.succs else r.succs x := by
  simp only [succs, flowGraph, block?_setBlock h]
  by_cases hx : x = s <;> simp [hx]

/-- Putting a block in place of another changes the predecessors of that slot alone. -/
theorem preds_setBlock (h : r.block? s = some a) (b : Block) (x : Slot) :
    (r.setBlock s b).preds x = if x = s then b.preds else r.preds x := by
  simp only [preds, flowGraph, block?_setBlock h]
  by_cases hx : x = s <;> simp [hx]

/-! ## Edges -/

/-- Dropping the dominator tree changes no view of the graph. -/
theorem sameBlocks_dropTree (r : Region) : SameBlocks r { r with tree := none } :=
  ⟨fun _ => rfl, rfl, rfl, rfl, rfl⟩

/-- The block with its successors and its predecessors changed. -/
def Block.relink (b : Block) (f g : List Slot → List Slot) : Block :=
  { b with succs := f b.succs, preds := g b.preds }

/-- Changing the successors of one block and then the predecessors of another one. -/
private theorem exists_relink (hs : r.block? s = some a) (ht : ∃ b, r.block? t = some b)
    (f g : List Slot → List Slot) :
    ∃ b, (r.setBlock s { a with succs := f a.succs }).block? t = some b ∧
      let r' := { (r.setBlock s { a with succs := f a.succs }).setBlock t
        { b with preds := g b.preds } with tree := none }
      SameBlocks r r' ∧ ∀ x, r'.block? x = (r.block? x).map fun c =>
        c.relink (if x = s then f else id) (if x = t then g else id) := by
  let r₁ := r.setBlock s { a with succs := f a.succs }
  have hsame₁ : SameBlocks r r₁ := sameBlocks_setBlock hs rfl
  obtain ⟨b, hb⟩ := hsame₁.live.2 ht
  let r₂ := r₁.setBlock t { b with preds := g b.preds }
  have hsame₂ : SameBlocks r₁ r₂ := sameBlocks_setBlock hb rfl
  refine ⟨b, hb, (hsame₁.trans hsame₂).trans (sameBlocks_dropTree r₂), fun x => ?_⟩
  -- One block gets other successors, and then one other predecessors.
  have h₁ : ∀ x, r₁.block? x = if x = s then some { a with succs := f a.succs } else r.block? x :=
    block?_setBlock hs _
  have h₂ : r₂.block? x = if x = t then some { b with preds := g b.preds } else r₁.block? x :=
    block?_setBlock hb _ x
  change r₂.block? x = _
  rw [h₂]
  by_cases hxt : x = t
  · -- The block with changed predecessors may be the one with changed successors.
    subst hxt
    rw [h₁] at hb
    by_cases hxs : x = s
    · subst hxs
      rw [if_pos rfl, Option.some.injEq] at hb
      subst hb
      simp [hs, Block.relink]
    · rw [if_neg hxs] at hb
      simp [hb, hxs, Block.relink]
  · rw [if_neg hxt, h₁]
    by_cases hxs : x = s
    · subst hxs
      simp [hs, hxt, Block.relink]
    · cases hx : r.block? x <;> simp [hxs, hxt, Block.relink]

/-- The edges after some were changed at one source and at one target. -/
private theorem edges_of_relink {f g : List Slot → List Slot} (hs : r.block? s = some a)
    (ht : ∃ b, r.block? t = some b)
    (hrelink : ∀ x, r'.block? x = (r.block? x).map fun c =>
      c.relink (if x = s then f else id) (if x = t then g else id)) :
    (∀ x, r'.succs x = if x = s then f (r.succs s) else r.succs x) ∧
      ∀ x, r'.preds x = if x = t then g (r.preds t) else r.preds x := by
  constructor
  · intro x
    simp only [succs, flowGraph, hrelink]
    by_cases hxs : x = s
    · subst hxs
      simp [hs, Block.relink]
    · cases hx : r.block? x <;> simp [hxs, Block.relink]
  · intro x
    obtain ⟨b, hb⟩ := ht
    simp only [preds, flowGraph, hrelink]
    by_cases hxt : x = t
    · subst hxt
      simp [hb, Block.relink]
    · cases hx : r.block? x <;> simp [hxt, Block.relink]

/-- Adding an edge changes the two blocks it joins. -/
theorem addEdge_relink (hs : r.block? s = some a) (ht : ∃ b, r.block? t = some b) :
    ∃ r', r.addEdge s t = .ok r' ∧ SameBlocks r r' ∧ ∀ x, r'.block? x = (r.block? x).map fun c =>
      c.relink (if x = s then Flow.insert t else id) (if x = t then Flow.insert s else id) := by
  obtain ⟨b, hb, hsame, hrelink⟩ := exists_relink hs ht (Flow.insert t) (Flow.insert s)
  refine ⟨_, ?_, hsame, hrelink⟩
  unfold addEdge
  rw [block_eq_ok hs]
  change (Region.block _ t >>= fun b => _) = _
  rw [block_eq_ok hb]
  rfl

/-- Removing an edge that is there changes the two blocks it joins. -/
theorem removeEdge_relink (hs : r.block? s = some a) (ht : ∃ b, r.block? t = some b)
    (hst : t ∈ a.succs) :
    ∃ r', r.removeEdge s t = .ok r' ∧ SameBlocks r r' ∧
      ∀ x, r'.block? x = (r.block? x).map fun c =>
        c.relink (if x = s then (·.filter (· != t)) else id)
          (if x = t then (·.filter (· != s)) else id) := by
  obtain ⟨b, hb, hsame, hrelink⟩ := exists_relink hs ht (fun l => l.filter (· != t))
    (fun l => l.filter (· != s))
  refine ⟨_, ?_, hsame, hrelink⟩
  unfold removeEdge
  rw [block_eq_ok hs]
  change (if !a.succs.contains t then _ else (Region.block _ t >>= fun b => _)) = _
  rw [List.contains_iff_mem.2 hst, block_eq_ok hb]
  rfl

/-- Adding an edge between two blocks adds that edge and changes nothing else. -/
theorem addEdge_spec (h : Linked r) (hs : r.block? s = some a) (ht : ∃ b, r.block? t = some b) :
    ∃ r', r.addEdge s t = .ok r' ∧ Linked r' ∧ SameBlocks r r' ∧
      ∀ x y, y ∈ r'.succs x ↔ y ∈ r.succs x ∨ x = s ∧ y = t := by
  obtain ⟨r', hok, hsame, hrelink⟩ := addEdge_relink hs ht
  obtain ⟨hsuccs, hpreds⟩ := edges_of_relink hs ht hrelink
  -- The lists at both ends change alike, so they still say the same.
  have hmem : ∀ x y, y ∈ (if x = s then Flow.insert t (r.succs s) else r.succs x) ↔
      y ∈ r.succs x ∨ x = s ∧ y = t := by
    intro x y
    split
    · rename_i hxs
      rw [hxs, Flow.mem_insert]
      simp [or_comm]
    · rename_i hxs
      simp [hxs]
  have hedge : ∀ x y, y ∈ r'.succs x ↔ y ∈ r.succs x ∨ x = s ∧ y = t := by
    intro x y
    rw [hsuccs]
    exact hmem x y
  have hiff : ∀ x y, y ∈ r'.succs x ↔ x ∈ r'.preds y := by
    intro x y
    rw [hedge, hpreds]
    split
    · rename_i hyt
      rw [hyt, Flow.mem_insert, h.succ_iff]
      simp [or_comm]
    · rename_i hyt
      simp [hyt, h.succ_iff]
  have hlive : ∀ x y, y ∈ r'.succs x → ∃ b, r.block? y = some b := by
    intro x y hxy
    rcases (hedge x y).1 hxy with hxy | ⟨_, rfl⟩
    · exact h.live x y hxy
    · exact ht
  have hsorted : ∀ x, Sorted id (r'.succs x) := by
    intro x
    rw [hsuccs]
    split
    · exact Ascending.Sorted.insert (h.sorted s) t
    · exact h.sorted x
  have hsortedPreds : ∀ x, Sorted id (r'.preds x) := by
    intro x
    rw [hpreds]
    split
    · exact Ascending.Sorted.insert (h.sorted_preds t) s
    · exact h.sorted_preds x
  exact ⟨r', hok, h.of_sameBlocks hsame hiff hlive hsorted hsortedPreds, hsame, hedge⟩

/-- Removing an edge that is there removes that edge and changes nothing else. -/
theorem removeEdge_spec (h : Linked r) (hst : t ∈ r.succs s) :
    ∃ r', r.removeEdge s t = .ok r' ∧ Linked r' ∧ SameBlocks r r' ∧
      ∀ x y, y ∈ r'.succs x ↔ y ∈ r.succs x ∧ ¬ (x = s ∧ y = t) := by
  obtain ⟨a, hs⟩ := h.source_live hst
  obtain ⟨r', hok, hsame, hrelink⟩ := removeEdge_relink hs (h.live s t hst) (succs_of_block hs ▸ hst)
  obtain ⟨hsuccs, hpreds⟩ := edges_of_relink hs (h.live s t hst) hrelink
  -- The lists at both ends change alike, so they still say the same.
  have hmem : ∀ x y, y ∈ (if x = s then (r.succs s).filter (· != t) else r.succs x) ↔
      y ∈ r.succs x ∧ ¬ (x = s ∧ y = t) := by
    intro x y
    split
    · rename_i hxs
      rw [hxs, List.mem_filter]
      simp
    · rename_i hxs
      simp [hxs]
  have hedge : ∀ x y, y ∈ r'.succs x ↔ y ∈ r.succs x ∧ ¬ (x = s ∧ y = t) := by
    intro x y
    rw [hsuccs]
    exact hmem x y
  have hiff : ∀ x y, y ∈ r'.succs x ↔ x ∈ r'.preds y := by
    intro x y
    rw [hedge, hpreds]
    split
    · rename_i hyt
      rw [hyt, List.mem_filter, h.succ_iff]
      simp
    · rename_i hyt
      simp [hyt, h.succ_iff]
  have hlive : ∀ x y, y ∈ r'.succs x → ∃ b, r.block? y = some b := fun x y hxy =>
    h.live x y ((hedge x y).1 hxy).1
  have hsorted : ∀ x, Sorted id (r'.succs x) := by
    intro x
    rw [hsuccs]
    split
    · exact List.Pairwise.filter _ (h.sorted s)
    · exact h.sorted x
  have hsortedPreds : ∀ x, Sorted id (r'.preds x) := by
    intro x
    rw [hpreds]
    split
    · exact List.Pairwise.filter _ (h.sorted_preds t)
    · exact h.sorted_preds x
  exact ⟨r', hok, h.of_sameBlocks hsame hiff hlive hsorted hsortedPreds, hsame, hedge⟩

/-- Removing distinct edges, given by a list and the edge that belongs to each element. -/
theorem foldlM_removeEdge (f : Slot → Slot × Slot) (hf : ∀ t u, f t = f u → t = u)
    (l : List Slot) (hnodup : l.Nodup) (h : Linked r)
    (hl : ∀ t ∈ l, (f t).2 ∈ r.succs (f t).1) :
    ∃ r', l.foldlM (fun r t => r.removeEdge (f t).1 (f t).2) r = .ok r' ∧ Linked r' ∧
      SameBlocks r r' ∧ ∀ x y, y ∈ r'.succs x ↔ y ∈ r.succs x ∧ ∀ t ∈ l, f t ≠ (x, y) := by
  induction l generalizing r with
  | nil => exact ⟨r, rfl, h, .refl r, by simp⟩
  | cons u l ih =>
    have ⟨hu, hnodup'⟩ := List.nodup_cons.1 hnodup
    obtain ⟨r₁, hok₁, h₁, hsame₁, hmem₁⟩ := removeEdge_spec h (hl u List.mem_cons_self)
    -- Another edge is removed later, since no two are the same.
    have hl₁ : ∀ t ∈ l, (f t).2 ∈ r₁.succs (f t).1 := by
      intro t ht
      refine (hmem₁ _ _).2 ⟨hl t (List.mem_cons_of_mem _ ht), fun heq => hu ?_⟩
      rw [← hf t u (Prod.ext heq.1 heq.2)]
      exact ht
    obtain ⟨r', hok, h', hsame, hmem⟩ := ih hnodup' h₁ hl₁
    refine ⟨r', ?_, h', hsame₁.trans hsame, fun x y => ?_⟩
    · rw [List.foldlM_cons, hok₁]
      exact hok
    · rw [hmem, hmem₁, List.forall_mem_cons]
      constructor
      · rintro ⟨⟨hxy, hne⟩, hrest⟩
        exact ⟨hxy, fun heq => hne (by simp [heq]), hrest⟩
      · rintro ⟨hxy, hne, hrest⟩
        exact ⟨⟨hxy, fun heq => hne (Prod.ext heq.1.symm heq.2.symm)⟩, hrest⟩

/-- Adding edges, given by a list and the edge that belongs to each element. -/
theorem foldlM_addEdge {α : Type} (f : α → Slot × Slot) (l : List α) (h : Linked r)
    (hl : ∀ t ∈ l, (∃ b, r.block? (f t).1 = some b) ∧ ∃ b, r.block? (f t).2 = some b) :
    ∃ r', l.foldlM (fun r t => r.addEdge (f t).1 (f t).2) r = .ok r' ∧ Linked r' ∧
      SameBlocks r r' ∧ ∀ x y, y ∈ r'.succs x ↔ y ∈ r.succs x ∨ ∃ t ∈ l, f t = (x, y) := by
  induction l generalizing r with
  | nil => exact ⟨r, rfl, h, .refl r, by simp⟩
  | cons u l ih =>
    obtain ⟨⟨a, ha⟩, hb⟩ := hl u List.mem_cons_self
    obtain ⟨r₁, hok₁, h₁, hsame₁, hmem₁⟩ := addEdge_spec h ha hb
    obtain ⟨r', hok, h', hsame, hmem⟩ := ih h₁ fun t ht => by
      rw [hsame₁.live, hsame₁.live]
      exact hl t (List.mem_cons_of_mem _ ht)
    refine ⟨r', ?_, h', hsame₁.trans hsame, fun x y => ?_⟩
    · rw [List.foldlM_cons, hok₁]
      exact hok
    · rw [hmem, hmem₁, or_assoc]
      simp only [List.mem_cons, exists_eq_or_imp, Prod.ext_iff, @eq_comm _ x, @eq_comm _ y]

/-! ## Blocks -/

/-- A block without edges. -/
def Block.Isolated (b : Block) : Prop := b.succs = [] ∧ b.preds = []

/-- The slot `s` is free in `r` and holds the block `b` in `r'`. No other slot and no address
changes. -/
structure Fills (r r' : Region) (s : Slot) (b : Block) : Prop where
  vacant : r.block? s = none
  block : r'.block? s = some b
  other : ∀ x, x ≠ s → r'.block? x = r.block? x
  byAddr : r'.byAddr = r.byAddr
  entryAddr : r'.entryAddr = r.entryAddr
  free_nodup : r'.free.Nodup
  free_dead : ∀ x ∈ r'.free, x < r'.slots.size ∧ r'.block? x = none

/-- A block that is put in takes a free slot, for both ways to find one, and is entered under its
address if it is a guest block. -/
theorem exists_fills_insertBlock (hnodup : r.free.Nodup)
    (hdead : ∀ s ∈ r.free, s < r.slots.size ∧ r.block? s = none) (b : Block) :
    ∃ (r₁ : Region) (s : Slot),
      r.insertBlock b = (if b.isGuest then r₁.setBlockAt b.entry s else r₁, s) ∧
        Fills r r₁ s b := by
  cases hfree : r.free with
  | nil =>
    refine ⟨{ r with slots := r.slots.push (some b), tree := none }, r.slots.size,
      by simp [insertBlock, hfree], by simp [block?], by simp [block?], fun x hx => ?_, rfl, rfl,
      hnodup, by simp [hfree]⟩
    simp [block?, Array.getElem?_push, hx]
  | cons s free =>
    obtain ⟨hlt, hnone⟩ := hdead s (by simp [hfree])
    have ⟨hs, hnodup⟩ := List.nodup_cons.1 (hfree ▸ hnodup)
    have hne : ∀ x, x ≠ s → Option.join (r.slots.setIfInBounds s (some b))[x]? =
        r.block? x := by
      intro x hx
      simp [block?, Ne.symm hx]
    refine ⟨{ r with slots := r.slots.setIfInBounds s (some b), free := free, tree := none }, s,
      by simp [insertBlock, hfree], hnone, by simp [block?, hlt], hne, rfl, rfl, hnodup,
      fun x hx => ?_⟩
    -- A slot is listed as free once only, so those that are left are not the one that was taken.
    obtain ⟨hxlt, hxnone⟩ := hdead x (by simp [hfree, hx])
    have hxs : x ≠ s := fun heq => hs (heq ▸ hx)
    exact ⟨by simpa using hxlt, (hne x hxs).trans hxnone⟩

namespace Fills

variable (hf : Fills r r' s b)

include hf

/-- A new block without links adds no successor. -/
theorem succs (hb : b.Isolated) (x : Slot) : r'.succs x = r.succs x := by
  by_cases hx : x = s
  · rw [hx, succs_of_none hf.vacant, succs_of_block hf.block, hb.1]
  · simp only [Region.succs, flowGraph, hf.other x hx]

/-- A new block without links adds no predecessor. -/
theorem preds (hb : b.Isolated) (x : Slot) : r'.preds x = r.preds x := by
  by_cases hx : x = s
  · rw [hx, preds_of_none hf.vacant, preds_of_block hf.block, hb.2]
  · simp only [Region.preds, flowGraph, hf.other x hx]

/-- A new block is not found by its address before it is listed. -/
theorem blockAt? (x : UInt32) : r'.blockAt? x = r.blockAt? x := by
  simp only [Region.blockAt?, hf.byAddr]

/-- A slot that holds a block is not the one that is filled. -/
theorem ne (hx : ∃ c, r.block? x = some c) : x ≠ s := by
  rintro rfl
  obtain ⟨c, hc⟩ := hx
  rw [hf.vacant] at hc
  cases hc

/-- A slot may be filled with a block that has no edges. -/
theorem linked (h : Linked r) (hb : b.Isolated) : Linked r' where
  succ_iff x y := by
    rw [hf.succs hb, hf.preds hb]
    exact h.succ_iff x y
  live x y hxy := by
    rw [hf.succs hb] at hxy
    have hlive := h.live x y hxy
    rwa [hf.other y (hf.ne hlive)]
  sorted x := hf.succs hb x ▸ h.sorted x
  sorted_preds x := hf.preds hb x ▸ h.sorted_preds x
  free_dead := hf.free_dead
  free_nodup := hf.free_nodup
  addr_sorted := hf.byAddr ▸ h.addr_sorted
  addr_guest addr x hx := by
    rw [hf.blockAt?] at hx
    obtain ⟨c, hc, hguest⟩ := h.addr_guest addr x hx
    have hxs : x ≠ s := hf.ne (exists_block_iff_bare?.2 ⟨c, hc⟩)
    refine ⟨c, ?_, hguest⟩
    rw [← hc, bare?, hf.other x hxs]
    rfl

end Fills

/-- Putting in a block without edges takes a free slot and changes no edge. -/
theorem insertBlock_spec (h : Linked r) (hb : b.Isolated) :
    ∃ r' s, r.insertBlock b = (r', s) ∧ Linked r' ∧ r.block? s = none ∧
      r'.block? s = some b ∧ (∀ x, x ≠ s → r'.block? x = r.block? x) ∧
      (∀ x, r'.succs x = r.succs x) ∧
      (∀ x, r'.blockAt? x = if b.isGuest = true ∧ x = b.entry then some s else r.blockAt? x) ∧
      r'.entryAddr = r.entryAddr := by
  obtain ⟨r₁, s, heq, hf⟩ := exists_fills_insertBlock h.free_nodup h.free_dead b
  have h₁ : Linked r₁ := hf.linked h hb
  by_cases hguest : b.isGuest = true
  · rw [if_pos hguest] at heq
    have h' : Linked (r₁.setBlockAt b.entry s) :=
      linked_setBlockAt (b := b.bare) h₁ (bare?_of_block hf.block) hguest
    refine ⟨_, s, heq, h', hf.vacant, hf.block, hf.other, hf.succs hb, fun x => ?_, hf.entryAddr⟩
    rw [blockAt?_setBlockAt h₁.addr_sorted, hf.blockAt?]
    simp only [hguest, true_and]
  · rw [if_neg hguest] at heq
    refine ⟨_, s, heq, h₁, hf.vacant, hf.block, hf.other, hf.succs hb, fun x => ?_, hf.entryAddr⟩
    rw [hf.blockAt?, if_neg fun hx => hguest hx.1]

/-! ## Removing a block -/

/-- The region with the block in `s` taken out, whose edges are gone already. -/
def vacate (r : Region) (s : Slot) : Region :=
  { r with slots := r.slots.setIfInBounds s none, free := s :: r.free }

/-- Vacating a slot takes its block alone. -/
theorem block?_vacate (hb : r.block? s = some b) (x : Slot) :
    (r.vacate s).block? x = if x = s then none else r.block? x := by
  have hlt := lt_size_of_block hb
  simp only [vacate, block?]
  rw [Array.getElem?_setIfInBounds]
  by_cases hx : x = s
  · subst hx
    simp [hlt]
  · simp [hx, Ne.symm hx]

/-- Vacating a slot without successors changes no successors. -/
theorem succs_vacate (hb : r.block? s = some b) (hnil : r.succs s = []) (x : Slot) :
    (r.vacate s).succs x = r.succs x := by
  by_cases hx : x = s
  · rw [hx, hnil]
    exact succs_of_none (by rw [block?_vacate hb, if_pos rfl])
  · simp only [succs, flowGraph, block?_vacate hb, if_neg hx]

/-- Vacating a slot without predecessors changes no predecessors. -/
theorem preds_vacate (hb : r.block? s = some b) (hnil : r.preds s = []) (x : Slot) :
    (r.vacate s).preds x = r.preds x := by
  by_cases hx : x = s
  · rw [hx, hnil]
    exact preds_of_none (by rw [block?_vacate hb, if_pos rfl])
  · simp only [preds, flowGraph, block?_vacate hb, if_neg hx]

/-- A block may be taken out if no edge and no address leads to it. -/
theorem linked_vacate (h : Linked r) (hb : r.block? s = some b) (hsuccs : r.succs s = [])
    (hpreds : r.preds s = []) (haddr : ∀ addr, r.blockAt? addr ≠ some s) :
    Linked (r.vacate s) where
  succ_iff x y := by
    rw [succs_vacate hb hsuccs, preds_vacate hb hpreds]
    exact h.succ_iff x y
  live x y hxy := by
    rw [succs_vacate hb hsuccs] at hxy
    -- Nothing leads to the slot, or it would have a predecessor.
    have hys : y ≠ s := by
      rintro rfl
      have hpred := (h.succ_iff x y).1 hxy
      rw [hpreds] at hpred
      cases hpred
    rw [block?_vacate hb, if_neg hys]
    exact h.live x y hxy
  sorted x := succs_vacate hb hsuccs x ▸ h.sorted x
  sorted_preds x := preds_vacate hb hpreds x ▸ h.sorted_preds x
  free_dead x hx := by
    have hsize : (r.vacate s).slots.size = r.slots.size := Array.size_setIfInBounds
    rw [hsize, block?_vacate hb]
    rcases List.mem_cons.1 hx with rfl | hx
    · exact ⟨lt_size_of_block hb, if_pos rfl⟩
    · obtain ⟨hlt, hnone⟩ := h.free_dead x hx
      refine ⟨hlt, ?_⟩
      rw [hnone, ite_self]
  free_nodup := by
    refine List.nodup_cons.2 ⟨fun hmem => ?_, h.free_nodup⟩
    have hnone := (h.free_dead s hmem).2
    rw [hb] at hnone
    cases hnone
  addr_sorted := h.addr_sorted
  addr_guest addr x hx := by
    have hxs : x ≠ s := fun heq => haddr addr (heq ▸ hx)
    obtain ⟨c, hc, hguest⟩ := h.addr_guest addr x hx
    refine ⟨c, ?_, hguest⟩
    rw [← hc, bare?, block?_vacate hb, if_neg hxs]
    rfl

/-- The region without the address `addr`, if the block found there is the one in `s`. -/
def unlist (r : Region) (addr : UInt32) (s : Slot) : Region :=
  if r.blockAt? addr = some s then r.eraseBlockAt addr else r

/-- A block is found at its own address only, so after that one is taken out it is found nowhere. -/
theorem blockAt?_unlist (h : Linked r) (hb : r.bare? s = some a) (x : UInt32) :
    (r.unlist a.entry s).blockAt? x = if r.blockAt? x = some s then none else r.blockAt? x := by
  have hentry : r.blockAt? x = some s → x = a.entry := by
    intro hx
    obtain ⟨c, hc, -, hce⟩ := h.addr_guest x s hx
    rw [hb, Option.some.injEq] at hc
    rw [hc, hce]
  unfold unlist
  by_cases hat : r.blockAt? a.entry = some s
  · rw [if_pos hat, blockAt?_eraseBlockAt h.addr_sorted]
    by_cases hx : x = a.entry
    · rw [if_pos hx, hx, if_pos hat]
    · rw [if_neg hx, if_neg fun h => hx (hentry h)]
  · rw [if_neg hat, if_neg fun h => hat (hentry h ▸ h)]

/-- Taking a block out of the list breaks no link. -/
theorem linked_unlist (h : Linked r) (addr : UInt32) (s : Slot) : Linked (r.unlist addr s) := by
  unfold unlist
  split
  · exact linked_eraseBlockAt h addr
  · exact h

@[simp] theorem block?_unlist (addr : UInt32) (s : Slot) : (r.unlist addr s).block? = r.block? := by
  unfold unlist
  split <;> rfl

@[simp] theorem succs_unlist (addr : UInt32) (s : Slot) : (r.unlist addr s).succs = r.succs := by
  unfold unlist
  split <;> rfl

@[simp] theorem preds_unlist (addr : UInt32) (s : Slot) : (r.unlist addr s).preds = r.preds := by
  unfold unlist
  split <;> rfl

@[simp] theorem entryAddr_unlist (addr : UInt32) (s : Slot) :
    (r.unlist addr s).entryAddr = r.entryAddr := by
  unfold unlist
  split <;> rfl

/-- A removal first takes the edges from the block, those that leave it before those that lead to
it. -/
private theorem exists_detached (h : Linked r) (hs : r.block? s = some b) :
    ∃ r' b', r.removeBlock s = .ok ((r'.unlist b'.entry s).vacate s, b') ∧
      r'.block? s = some b' ∧ b'.bare = b.bare ∧ Linked r' ∧ SameBlocks r r' ∧
      ∀ x y, y ∈ r'.succs x ↔ y ∈ r.succs x ∧ x ≠ s ∧ y ≠ s := by
  obtain ⟨r₁, hok₁, h₁, hsame₁, hmem₁⟩ := foldlM_removeEdge (fun t => (s, t)) (by simp)
    (r.succs s) (h.sorted s).nodup h (fun t ht => ht)
  obtain ⟨b₁, hb₁, hbare₁⟩ := exists_block_of_bare?
    ((hsame₁.bare s).trans (bare?_of_block hs))
  obtain ⟨r₂, hok₂, h₂, hsame₂, hmem₂⟩ := foldlM_removeEdge (fun t => (t, s)) (by simp)
    (r₁.preds s) (h₁.sorted_preds s).nodup h₁ (fun t ht => (h₁.succ_iff t s).2 ht)
  obtain ⟨b₂, hb₂, hbare₂⟩ := exists_block_of_bare?
    ((hsame₂.bare s).trans (bare?_of_block hb₁))
  refine ⟨r₂, b₂, ?_, hb₂, hbare₂.trans hbare₁, h₂, hsame₁.trans hsame₂, fun x y => ?_⟩
  · unfold removeBlock
    rw [block_eq_ok hs]
    change ((b.succs.foldlM (fun r t => r.removeEdge s t) r) >>= fun r => _) = _
    rw [← succs_of_block hs, hok₁]
    change ((r₁.block s) >>= fun b => _) = _
    rw [block_eq_ok hb₁]
    change ((b₁.preds.foldlM (fun r t => r.removeEdge t s) r₁) >>= fun r => _) = _
    rw [← preds_of_block hb₁, hok₂]
    change ((r₂.block s) >>= fun b => _) = _
    rw [block_eq_ok hb₂]
    -- The slot is freed before the address is taken out, but neither looks at the other.
    unfold unlist
    change Except.ok (if r₂.blockAt? b₂.entry = some s then _ else _, b₂) = _
    split <;> rfl
  · rw [hmem₂]
    constructor
    · rintro ⟨hxy, hpred⟩
      obtain ⟨hxy', hsucc⟩ := (hmem₁ x y).1 hxy
      refine ⟨hxy', fun hx => ?_, fun hy => ?_⟩
      · exact hsucc y (hx ▸ hxy') (by simp [hx])
      · exact hpred x ((h₁.succ_iff x s).1 (hy ▸ hxy)) (by simp [hy])
    · rintro ⟨hxy, hx, hy⟩
      refine ⟨(hmem₁ x y).2 ⟨hxy, fun t _ heq => hx (Prod.ext_iff.1 heq).1.symm⟩, ?_⟩
      exact fun t _ heq => hy (Prod.ext_iff.1 heq).2.symm

/-- Removing a block removes it with all its edges and its address, and changes nothing else. -/
theorem removeBlock_spec (h : Linked r) (hs : r.block? s = some b) :
    ∃ r' b', r.removeBlock s = .ok (r', b') ∧ b'.bare = b.bare ∧ Linked r' ∧
      (∀ x, r'.bare? x = if x = s then none else r.bare? x) ∧
      (∀ x y, y ∈ r'.succs x ↔ y ∈ r.succs x ∧ x ≠ s ∧ y ≠ s) ∧
      (∀ x, r'.blockAt? x = if r.blockAt? x = some s then none else r.blockAt? x) ∧
      r'.entryAddr = r.entryAddr := by
  obtain ⟨r₂, b₂, hok, hb₂, hbare, h₂, hsame, hedge⟩ := exists_detached h hs
  let r₃ := r₂.unlist b₂.entry s
  have hb₃ : r₃.block? s = some b₂ := by rw [block?_unlist, hb₂]
  have hat : ∀ x, r₃.blockAt? x = if r.blockAt? x = some s then none else r.blockAt? x := by
    intro x
    rw [← hsame.blockAt? x]
    exact blockAt?_unlist h₂ (bare?_of_block hb₂) x
  -- Neither an edge nor an address is left at the slot.
  have hsuccs : r₃.succs s = [] := by
    refine List.eq_nil_iff_forall_not_mem.2 fun y hy => ?_
    rw [succs_unlist] at hy
    exact ((hedge s y).1 hy).2.1 rfl
  have hpreds : r₃.preds s = [] := by
    refine List.eq_nil_iff_forall_not_mem.2 fun y hy => ?_
    rw [preds_unlist] at hy
    exact ((hedge y s).1 ((h₂.succ_iff y s).2 hy)).2.2 rfl
  have haddr : ∀ x, r₃.blockAt? x ≠ some s := by
    intro x hx
    rw [hat] at hx
    split at hx
    · cases hx
    · contradiction
  refine ⟨r₃.vacate s, b₂, hok, hbare, linked_vacate (linked_unlist h₂ _ s) hb₃ hsuccs hpreds haddr,
    fun x => ?_, fun x y => ?_, hat, ?_⟩
  · rw [bare?, block?_vacate hb₃]
    split
    · rfl
    · rw [block?_unlist]
      exact hsame.bare x
  · rw [succs_vacate hb₃ hsuccs, succs_unlist]
    exact hedge x y
  · exact (entryAddr_unlist ..).trans hsame.entryAddr

end HotRegion.Region
