import HotRegion.Proofs.Flow.TreeWalk
import HotRegion.Proofs.Region.Ready

/-!
# Dominators of a region

The dominator tree of a region is exact as soon as its edges are kept at both ends, whatever cannot
be reached from the entry and whatever leads back to it. The immediate dominators noted in the
blocks answer the same questions as the tree.

## Key results

- `wellFormed_of_symmetric`, `rooted_of_symmetric`: what symmetric edges make of the flow graph
- `idomChain_computeDominators`: the noted immediate dominators are those of the tree
- `computeDominators_exact`: tree and notes are exact
-/

namespace HotRegion.Region

open HotRegion.Flow (DominatorTree)

variable {r : Region} {s t a b : Slot} {fuel : Nat}

/-- Symmetric edges only join blocks, so the flow graph is well formed. -/
theorem wellFormed_of_symmetric (hentry : ∃ e, r.block? entrySlot = some e)
    (hsymm : ∀ s t, t ∈ r.succs s ↔ s ∈ r.preds t) : r.flowGraph.WellFormed where
  entry_mem := mem_nodes.2 hentry
  sorted := r.sorted_slots
  mem_preds s t := (hsymm s t).symm
  source_mem s t hst := by
    rw [mem_nodes, ← Option.ne_none_iff_exists']
    intro hnone
    have hmem : t ∈ r.succs s := hst
    rw [succs_of_none hnone] at hmem
    exact absurd hmem List.not_mem_nil
  target_mem s t hst := by
    rw [mem_nodes, ← Option.ne_none_iff_exists']
    intro hnone
    have hmem : s ∈ r.preds t := (hsymm s t).1 hst
    rw [preds_of_none hnone] at hmem
    exact absurd hmem List.not_mem_nil

/-- Dominance makes sense everywhere in a region with symmetric edges whose blocks are all reachable
and whose entry nothing goes back to. -/
theorem rooted_of_symmetric (hentry : ∃ e, r.block? entrySlot = some e)
    (hsymm : ∀ s t, t ∈ r.succs s ↔ s ∈ r.preds t)
    (hreach : ∀ s b, r.block? s = some b → r.flowGraph.Reachable s)
    (hpreds : r.preds entrySlot = []) : r.flowGraph.Rooted where
  toWellFormed := wellFormed_of_symmetric hentry hsymm
  reachable s hs := by
    obtain ⟨b, hb⟩ := mem_nodes.1 hs
    exact hreach s b hb
  preds_entry := hpreds

/-- Whether control can reach all blocks can be checked by a search. -/
theorem reachable_of_blocks (hentry : ∃ e, r.block? entrySlot = some e)
    (hsymm : ∀ s t, t ∈ r.succs s ↔ s ∈ r.preds t)
    (h : ∀ s ∈ r.flowGraph.nodes, s ∈ r.flowGraph.reachable) (s : Slot) (b : Block)
    (hb : r.block? s = some b) : r.flowGraph.Reachable s :=
  (Flow.Graph.mem_reachable_iff (wellFormed_of_symmetric hentry hsymm)).1
    (h s (mem_nodes.2 ⟨b, hb⟩))

/-- There are no more blocks than slots. -/
theorem length_nodes_le (r : Region) : r.flowGraph.nodes.length ≤ r.slots.size := by
  simp only [flowGraph, blocks, List.length_map]
  refine Nat.le_trans (List.length_filterMap_le _ _) ?_
  simp

/-- Walking up by the noted immediate dominators is walking up the tree. -/
theorem idomChain_computeDominators (r : Region) (fuel : Nat) (b : Slot) :
    r.computeDominators.idomChain fuel (some b) = r.flowGraph.dominatorTree.ancestors fuel b := by
  have hnoted : ∀ b, (r.computeDominators.block? b).bind (·.idom) =
      r.flowGraph.dominatorTree.idom b := by
    intro b
    rw [block?_computeDominators]
    cases hb : r.block? b with
    | some c => rfl
    | none =>
      have hnode : b ∉ r.flowGraph.nodes := fun h => by
        obtain ⟨c, hc⟩ := mem_nodes.1 h
        rw [hb] at hc
        cases hc
      rw [Flow.Graph.idom_eq_none hnode]
      rfl
  induction fuel generalizing b with
  | zero => rfl
  | succ fuel ih =>
    rw [idomChain, DominatorTree.ancestors, hnoted]
    cases r.flowGraph.dominatorTree.idom b with
    | none => cases fuel <;> rfl
    | some d => exact congrArg (b :: ·) (ih d)

/-- In a region with symmetric edges the dominator tree is exact, and so is what the blocks note of
it: the rounds that build it end; a block dominates a reachable block by the tree and by the notes if
and only if every path from the entry passes through it; only the entry has no immediate dominator,
and that of any other reachable block is the one strict dominator that all its strict dominators
dominate; walking up ends at the entry; and the preorder of a tree of reachable blocks lists every
block once, after its immediate dominator. Edges back to the entry do no harm. -/
theorem computeDominators_exact (r : Region) (hentry : ∃ e, r.block? entrySlot = some e)
    (hsymm : ∀ s t, t ∈ r.succs s ↔ s ∈ r.preds t) :
    r.computeDominators.tree = some r.flowGraph.dominatorTree ∧
      r.flowGraph.dominatorTree.Exact r.flowGraph ∧
      ∀ a b, r.flowGraph.Reachable b →
        (r.computeDominators.dominates a b = true ↔ r.flowGraph.Dominates a b) := by
  have hg := wellFormed_of_symmetric hentry hsymm
  refine ⟨rfl, DominatorTree.exact_dominatorTree hg, fun a b hb => ?_⟩
  have hsize : r.computeDominators.slots.size = r.slots.size := by simp [computeDominators]
  have hslots : (r.flowGraph.domSets.get b).length ≤ r.slots.size + 1 := by
    have hle := Flow.Graph.length_domSets_le hg hb
    have hnodes := r.length_nodes_le
    omega
  rw [dominates, idomChain_computeDominators, hsize, List.contains_iff_mem,
    DominatorTree.ancestors_congr hg hb hslots (DominatorTree.length_domSets_le_bound hg hb)]
  exact DominatorTree.mem_dominators hg hb

/-- Two ways from block 1 to block 4 and back to block 1, and block 5, which nothing leads to, with
an edge into the join. -/
def joinWithStray : Region where
  entryAddr := 0x1000
  slots := #[some { Block.entryBlock with succs := [1] },
    some { Block.entryBlock with entry := 0x1000, succs := [2, 3], preds := [0, 4] },
    some { Block.entryBlock with entry := 0x2000, succs := [4], preds := [1] },
    some { Block.entryBlock with entry := 0x3000, succs := [4], preds := [1] },
    some { Block.entryBlock with entry := 0x4000, succs := [1], preds := [2, 3, 5] },
    some { Block.entryBlock with entry := 0x5000, succs := [4] }]
  free := []
  byAddr := [(0x1000, 1), (0x2000, 2), (0x3000, 3), (0x4000, 4), (0x5000, 5)]
  tree := none
  fpTouched := .none

theorem computeDominators_exact_joinWithStray :
    joinWithStray.flowGraph.Dominates 1 4 ∧ ¬ joinWithStray.flowGraph.Dominates 2 4 ∧
      ¬ joinWithStray.flowGraph.Dominates 5 4 := by
  have hsymm : ∀ s t, t ∈ joinWithStray.succs s ↔ s ∈ joinWithStray.preds t :=
    symmetric_of_blocks (by decide +kernel)
  obtain ⟨-, -, hdom⟩ := computeDominators_exact joinWithStray ⟨_, rfl⟩ hsymm
  have hreach : joinWithStray.flowGraph.Reachable 4 :=
    ⟨[4, 2, 1, 0], .step (.step (.step .refl (by decide)) (by decide)) (by decide)⟩
  refine ⟨(hdom 1 4 hreach).1 ?_, fun h => ?_, fun h => ?_⟩
  · decide +kernel
  · exact absurd ((hdom 2 4 hreach).2 h) (by decide +kernel)
  · exact absurd ((hdom 5 4 hreach).2 h) (by decide +kernel)

end HotRegion.Region
