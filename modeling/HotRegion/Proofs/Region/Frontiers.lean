import HotRegion.Proofs.Region.Dominators

/-!
# Frontiers of a region and the merges placed there

In a region all of whose blocks are reachable, the frontiers read off the dominator tree are the
dominance frontiers of its graph, and the blocks where a register is merged are its iterated
frontier, neither more nor fewer. Placing merges a second time therefore finds them all there.

## Key results

- `frontiers_exact`: the frontier table of a region is exact
- `addPhis_eq_self` / `placePhis_eq_self`: merges that are there already are not placed again
- `phiCount_placePhis`: what placing merges counts is what it adds
- `placePhis_isLeast`: a register is merged in the least set of blocks that is closed under frontiers
-/

namespace HotRegion.Region

variable {r r' : Region} {s : Slot} {b : Block} {reg : Tracked} {u : Usage} {n : Nat}

/-! ## Frontiers -/

/-- The frontier table of a region whose blocks are all reachable, whose entry has no predecessor and
whose edges are symmetric: it has an ascending row for every block, which lists exactly the blocks
that have a predecessor dominated by it and that it does not strictly dominate itself. Every walk up
that fills the table, from a predecessor of a block, ends at the immediate dominator of the block. -/
theorem frontiers_exact (r : Region) (hentry : ∃ e, r.block? entrySlot = some e)
    (hsymm : ∀ s t, t ∈ r.succs s ↔ s ∈ r.preds t)
    (hreach : ∀ s b, r.block? s = some b → r.flowGraph.Reachable s)
    (hpreds : r.preds entrySlot = []) :
    let tree := r.flowGraph.dominatorTree
    let table := tree.frontiers r.flowGraph
    table.map Prod.fst = r.blocks.map Prod.fst ∧
      (∀ x b, b ∈ Flow.frontierOf table x ↔
        ∃ p, b ∈ r.succs p ∧ r.flowGraph.Dominates x p ∧ ¬ r.flowGraph.StrictlyDominates x b) ∧
      (∀ x, Ascending.Sorted id (Flow.frontierOf table x)) ∧
      ∀ b p d, p ∈ r.preds b → tree.idom b = some d → ∃ rest,
        tree.dominators p = tree.walkUp d (tree.idoms.length + 1) (some p) ++ d :: rest := by
  intro tree table
  have hg := rooted_of_symmetric hentry hsymm hreach hpreds
  refine ⟨Flow.keys_frontiers _ _, fun x b => Flow.mem_frontierOf_iff hg,
    fun x => Flow.sorted_frontierOf hg.toWellFormed _ x, fun b p d hp hd => ?_⟩
  have edge : b ∈ r.flowGraph.succs p := (hsymm p b).2 hp
  have hp := hg.reachable p (hg.source_mem p b edge)
  obtain ⟨hdb, -⟩ := Flow.Graph.idom_spec hg.toWellFormed (hp.succ edge) hd
  exact Flow.exists_walkUp_append hg.toWellFormed hp (hdb.1.of_succ hdb.2 edge)

/-- Two ways from block 1 to block 4, and back from there to block 1. -/
def loopedJoin : Region where
  entryAddr := 0x1000
  slots := #[some { Block.entryBlock with succs := [1] },
    some { Block.entryBlock with entry := 0x1000, succs := [2, 3], preds := [0, 4] },
    some { Block.entryBlock with entry := 0x2000, succs := [4], preds := [1] },
    some { Block.entryBlock with entry := 0x3000, succs := [4], preds := [1] },
    some { Block.entryBlock with entry := 0x4000, succs := [1], preds := [2, 3] }]
  free := []
  byAddr := [(0x1000, 1), (0x2000, 2), (0x3000, 3), (0x4000, 4)]
  tree := none
  fpTouched := .none

private theorem symmetric_loopedJoin (s t : Slot) :
    t ∈ loopedJoin.succs s ↔ s ∈ loopedJoin.preds t :=
  symmetric_of_blocks (by decide +kernel) s t

private theorem reachable_loopedJoin (s : Slot) (b : Block) (hb : loopedJoin.block? s = some b) :
    loopedJoin.flowGraph.Reachable s :=
  reachable_of_blocks ⟨_, rfl⟩ symmetric_loopedJoin (by decide +kernel) s b hb

/-- The head of the loop lies in its own frontier, and the join in those of both ways to it. -/
theorem frontiers_exact_loopedJoin :
    (∃ p, 1 ∈ loopedJoin.succs p ∧ loopedJoin.flowGraph.Dominates 1 p ∧
      ¬ loopedJoin.flowGraph.StrictlyDominates 1 1) ∧
    ∃ p, 4 ∈ loopedJoin.succs p ∧ loopedJoin.flowGraph.Dominates 2 p ∧
      ¬ loopedJoin.flowGraph.StrictlyDominates 2 4 := by
  obtain ⟨-, hrow, -⟩ :=
    frontiers_exact loopedJoin ⟨_, rfl⟩ symmetric_loopedJoin reachable_loopedJoin rfl
  exact ⟨(hrow 1 1).1 (by decide +kernel), (hrow 2 4).1 (by decide +kernel)⟩

/-! ## Merges that are there already -/

/-- Putting back the block that is in a slot changes nothing. -/
theorem setBlock_self (h : r.block? s = some b) : r.setBlock s b = r := by
  have hslot : r.slots[s]? = some (some b) := Option.join_eq_some_iff.1 h
  have hslots : r.slots.setIfInBounds s (some b) = r.slots := by
    apply Array.ext_getElem?
    intro i
    rw [Array.getElem?_setIfInBounds]
    split
    · rename_i hi
      subst hi
      rw [if_pos (lt_size_of_block h), hslot]
    · rfl
  unfold setBlock
  rw [hslots]

/-- A register that is merged in all the given blocks is not merged again. -/
theorem addPhis_eq_self {slots : List Slot} {n : Nat}
    (h : ∀ s ∈ slots, ∀ b, r.block? s = some b → reg ∈ b.phis) :
    addPhis (r, n) reg slots = (r, n) := by
  unfold addPhis
  induction slots with
  | nil => rfl
  | cons s slots ih =>
    have hrest := ih fun t ht => h t (List.mem_cons_of_mem _ ht)
    rw [List.foldl_cons]
    cases hb : r.block? s with
    | none => rwa [mergeAt_of_none hb]
    | some b =>
      have hreg : reg ∈ b.phis := h s List.mem_cons_self b hb
      have hphi : b.addPhi reg = b := by
        unfold Block.addPhi
        rw [if_pos (List.contains_iff_mem.2 hreg)]
      rwa [mergeAt_of_some hb, hphi, setBlock_self hb, if_pos hreg]

/-- Where every merge is there already, placing merges adds none. -/
theorem placePhis_eq_self {tree : Flow.DominatorTree} (htree : r.tree = some tree)
    (h : ∀ p ∈ u.defs, ∀ s ∈ Flow.iteratedFrontier (tree.frontiers r.flowGraph) p.2,
      ∀ b, r.block? s = some b → p.1 ∈ b.phis) : r.placePhis u = .ok (r, 0) := by
  let frontiers := tree.frontiers r.flowGraph
  have hfold : ∀ l : List (Tracked × List Slot), (∀ p ∈ l, p ∈ u.defs) → l.foldl (fun placed p =>
      addPhis placed p.1 (Flow.iteratedFrontier frontiers p.2)) (r, 0) = (r, 0) := by
    intro l hl
    induction l with
    | nil => rfl
    | cons p l ih =>
      rw [List.foldl_cons, addPhis_eq_self (h p (hl p List.mem_cons_self))]
      exact ih fun q hq => hl q (List.mem_cons_of_mem _ hq)
  unfold placePhis
  rw [htree]
  exact congrArg Except.ok (hfold u.defs fun _ hp => hp)

/-! ## Counting merges -/

/-- The number of merges in all blocks. -/
def phiCount (r : Region) : Nat :=
  r.blocks.foldl (fun n p => n + p.2.phis.length) 0

/-- The merges of all blocks in one list are as many. -/
theorem phiCount_eq_length (r : Region) : r.phiCount = (r.blocks.flatMap (·.2.phis)).length := by
  have hfold : ∀ (l : List (Slot × Block)) (n : Nat),
      l.foldl (fun n p => n + p.2.phis.length) n = n + (l.flatMap (·.2.phis)).length := by
    intro l
    induction l with
    | nil => exact fun _ => rfl
    | cons p l ih =>
      intro n
      rw [List.foldl_cons, ih, List.flatMap_cons, List.length_append, Nat.add_assoc]
  rw [phiCount, hfold, Nat.zero_add]

/-- Without merges there are none to count. -/
theorem phiCount_eq_zero (h : ∀ s, r.phisAt s = []) : r.phiCount = 0 := by
  rw [phiCount_eq_length, List.length_eq_zero_iff, List.flatMap_eq_nil_iff]
  intro p hp
  have hs := h p.1
  unfold phisAt at hs
  rwa [mem_blocks.1 hp] at hs

/-- Where one block of a list changes, the number of merges changes as in that block. -/
private theorem length_phis_set {slots : List (Option Block)} {b b' : Block} {i k : Nat}
    (hi : slots[i]? = some (some b)) :
    ((((slots.set i (some b')).zipIdx k).filterMap fun p => p.1.map (p.2, ·)).flatMap
        (·.2.phis)).length + b.phis.length =
      (((slots.zipIdx k).filterMap fun p => p.1.map (p.2, ·)).flatMap (·.2.phis)).length +
        b'.phis.length := by
  induction slots generalizing i k with
  | nil => cases hi
  | cons slot slots ih =>
    cases i with
    | zero =>
      cases hi
      simp only [List.set_cons_zero, List.zipIdx_cons, List.filterMap_cons, Option.map_some,
        List.flatMap_cons, List.length_append]
      omega
    | succ i =>
      have hrest := ih (k := k + 1) (i := i) hi
      cases slot with
      | none => simpa [List.zipIdx_cons] using hrest
      | some c =>
        simp only [List.set_cons_succ, List.zipIdx_cons, List.filterMap_cons, Option.map_some,
          List.flatMap_cons, List.length_append]
        omega

theorem phiCount_setBlock {b : Block} (hb : r.block? s = some b) (b' : Block) :
    (r.setBlock s b').phiCount + b.phis.length = r.phiCount + b'.phis.length := by
  have hslot : r.slots.toList[s]? = some (some b) := by
    rw [Array.getElem?_toList]
    exact Option.join_eq_some_iff.1 hb
  have hset : (r.setBlock s b').slots.toList = r.slots.toList.set s (some b') :=
    Array.toList_setIfInBounds
  rw [phiCount_eq_length, phiCount_eq_length, blocks, blocks, hset]
  exact length_phis_set hslot

/-- The count grows with the number of merges. -/
theorem phiCount_addPhis (placed : Region × Nat) (reg : Tracked) (slots : List Slot) :
    (addPhis placed reg slots).1.phiCount + placed.2 =
      placed.1.phiCount + (addPhis placed reg slots).2 := by
  unfold addPhis
  induction slots generalizing placed with
  | nil => rfl
  | cons s slots ih =>
    rw [List.foldl_cons]
    have hrest := ih (mergeAt reg placed s)
    cases hb : placed.1.block? s with
    | none => rwa [mergeAt_of_none hb] at hrest ⊢
    | some b =>
      have hset := phiCount_setBlock hb (b.addPhi reg)
      rw [mergeAt_of_some hb] at hrest ⊢
      by_cases hreg : reg ∈ b.phis
      · simp only [Block.addPhi, List.contains_iff_mem, if_pos hreg] at hset hrest ⊢
        omega
      · simp only [Block.addPhi, List.contains_iff_mem, if_neg hreg, List.length_append,
          List.length_singleton] at hset hrest ⊢
        omega

/-- Placing merges counts the merges that it adds. -/
theorem phiCount_placePhis (hok : r.placePhis u = .ok (r', n)) : r'.phiCount = r.phiCount + n := by
  unfold placePhis at hok
  split at hok
  · cases hok
  next tree _ =>
  -- Both counts go up together, by one register after the other.
  have hfold : ∀ (l : List (Tracked × List Slot)) (placed : Region × Nat),
      let placed' := l.foldl (fun placed p =>
        addPhis placed p.1 (Flow.iteratedFrontier (tree.frontiers r.flowGraph) p.2)) placed
      placed'.1.phiCount + placed.2 = placed.1.phiCount + placed'.2 := by
    intro l
    induction l with
    | nil => exact fun _ => rfl
    | cons p l ih =>
      intro placed
      have hrest := ih (addPhis placed p.1
        (Flow.iteratedFrontier (tree.frontiers r.flowGraph) p.2))
      have hfirst := phiCount_addPhis placed p.1
        (Flow.iteratedFrontier (tree.frontiers r.flowGraph) p.2)
      simp only [List.foldl_cons] at hrest ⊢
      omega
  have hcount := hfold u.defs (r, 0)
  simp only [Except.ok.inj hok, Nat.add_zero] at hcount
  exact hcount

/-! ## Placing merges -/

/-- The iterated frontiers of a register's entries in the table of definitions are the one of its
definitions. A register without an entry has no definition and nothing in its frontier. -/
private theorem exists_entry_iff {frontiers : List (Slot × List Slot)}
    (hdefs : Ascending.Sorted (fun p : Tracked × List Slot => p.1.key) u.defs) :
    (∃ defs, (reg, defs) ∈ u.defs ∧ s ∈ Flow.iteratedFrontier frontiers defs) ↔
      s ∈ Flow.iteratedFrontier frontiers (u.defBlocks reg) := by
  unfold Usage.defBlocks
  simp only [← Ascending.lookup_eq_some_iff hdefs]
  cases u.defs.lookup reg with
  | none =>
    refine ⟨fun ⟨_, h, _⟩ => (Option.some_ne_none _ h.symm).elim, fun hs => ?_⟩
    apply False.elim
    apply Flow.iteratedFrontier_induction (P := fun _ => False) ?_ hs
    rintro x y (hx | hx) _
    · exact List.not_mem_nil hx
    · exact hx
  | some defs => simp

/-- Merges are placed exactly at the iterated frontiers. In a region with symmetric edges whose
blocks are all reachable, whose entry has no predecessor, whose dominators are computed and which has
no merges yet: the blocks where a register is merged are the least set that holds the frontiers of
its definitions and of its own members; no block merges a register twice; the count is the number of
merges; and placing them once more changes nothing and counts none. -/
theorem placePhis_isLeast (r : Region) (u : Usage) (hentry : ∃ e, r.block? entrySlot = some e)
    (hsymm : ∀ s t, t ∈ r.succs s ↔ s ∈ r.preds t)
    (hreach : ∀ s b, r.block? s = some b → r.flowGraph.Reachable s)
    (hpreds : r.preds entrySlot = []) (htree : r.tree = some r.flowGraph.dominatorTree)
    (hphis : ∀ s, r.phisAt s = [])
    (hdefs : Ascending.Sorted (fun p : Tracked × List Slot => p.1.key) u.defs) :
    ∃ r' n, r.placePhis u = .ok (r', n) ∧
      (∀ reg, IsLeast {F : Set Slot | ∀ x, x ∈ u.defBlocks reg ∨ x ∈ F → r.flowGraph.frontier x ⊆ F}
        {s | reg ∈ r'.phisAt s}) ∧
      (∀ s, (r'.phisAt s).Nodup) ∧ r'.phiCount = n ∧ r'.placePhis u = .ok (r', 0) := by
  have hg := rooted_of_symmetric hentry hsymm hreach hpreds
  let frontiers := r.flowGraph.dominatorTree.frontiers r.flowGraph
  obtain ⟨r', n, hok, hm, hmem⟩ := placePhis_eq_ok u htree
  have hgraph : r'.flowGraph = r.flowGraph := hm.toSameGraph.flowGraph
  have hlive : ∀ defs, ∀ s ∈ Flow.iteratedFrontier frontiers defs, ∃ b, r.block? s = some b := by
    intro defs s hs
    apply mem_nodes.1
    apply Flow.iteratedFrontier_induction (P := (· ∈ r.flowGraph.nodes)) ?_ hs
    intro x y _ hy
    exact (Flow.mem_nodes_of_mem_frontierOf hy).1
  -- Blocks had no merges before, so exactly the iterated frontiers have them now.
  have hplaced : ∀ s reg, reg ∈ r'.phisAt s ↔
      s ∈ Flow.iteratedFrontier frontiers (u.defBlocks reg) := by
    intro s reg
    rw [hmem, hphis, ← exists_entry_iff hdefs]
    constructor
    · rintro (h | ⟨defs, hreg, hs, -⟩)
      · exact absurd h List.not_mem_nil
      · exact ⟨defs, hreg, hs⟩
    · rintro ⟨defs, hreg, hs⟩
      exact .inr ⟨defs, hreg, hs, hlive defs s hs⟩
  refine ⟨r', n, hok, fun reg => ?_, fun s => hm.nodup s (by rw [hphis]; exact List.nodup_nil), ?_, ?_⟩
  · rw [show {s | reg ∈ r'.phisAt s} = _ from Set.ext fun s => hplaced s reg]
    exact Flow.isLeast_iteratedFrontier hg (u.defBlocks reg)
  · rw [phiCount_placePhis hok, phiCount_eq_zero hphis, Nat.zero_add]
  · -- Every merge of the second run is there from the first.
    apply placePhis_eq_self (hm.tree.trans htree)
    intro p hp s hs b hb
    rw [hgraph] at hs
    have hreg := (hplaced s p.1).2 ((exists_entry_iff hdefs).1 ⟨p.2, hp, hs⟩)
    unfold phisAt at hreg
    rwa [hb] at hreg

/-- A definition in one of the two ways is merged at the join, and then where the loop closes. -/
theorem placePhis_isLeast_loopedJoin :
    ∃ r', loopedJoin.computeDominators.placePhis { defs := [(.icnt, [2])] } = .ok (r', 2) ∧
      IsLeast {F : Set Slot | ∀ x, x ∈ [2] ∨ x ∈ F → loopedJoin.flowGraph.frontier x ⊆ F}
        {s | .icnt ∈ r'.phisAt s} ∧
      r'.placePhis { defs := [(.icnt, [2])] } = .ok (r', 0) := by
  have hsame := sameGraph_computeDominators loopedJoin
  have hgraph := hsame.flowGraph
  obtain ⟨r', n, hok, hleast, -, -, hagain⟩ :=
    placePhis_isLeast loopedJoin.computeDominators { defs := [(.icnt, [2])] }
      (hsame.live.2 ⟨_, rfl⟩)
      (fun s t => by rw [hsame.succs, hsame.preds]; exact symmetric_loopedJoin s t)
      (fun s b hb => by
        obtain ⟨a, ha, -⟩ := hsame.block hb
        rw [hgraph]
        exact reachable_loopedJoin s a ha)
      (by rw [hsame.preds]; rfl) (by rw [hgraph]; rfl)
      (by intro s; rcases s with _ | _ | _ | _ | _ | s <;> rfl)
      (List.pairwise_singleton _ _)
  have hcount : n = 2 := by
    cases hok
    decide +kernel
  rw [hgraph] at hleast
  exact ⟨r', hcount ▸ hok, hleast .icnt, hagain⟩

end HotRegion.Region
