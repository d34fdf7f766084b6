import HotRegion.Proofs.Flow.Closure
import HotRegion.Proofs.Flow.TreeWalk
import Mathlib.Order.Bounds.Basic

/-!
# Frontiers and quiet stretches

The frontier table holds for every node exactly the nodes where its dominance ends, though it is
filled from the other side, by walking up the tree from the predecessors of joins. From this follows
what merges at an iterated frontier are for: where a node has no merge, nothing between its immediate
dominator and the node touches the register.

## Key results

- `mem_walkUp_iff` / `exists_walkUp_append`: a walk up to a dominator meets the dominators below it
- `mem_frontierOf_iff`: the frontier table is exact
- `isLeast_iteratedFrontier`: the iterated frontier is the least set that holds the frontiers of the
  definitions and of its own members
- `quiet_of_not_mem`: a node outside the iterated frontier is quiet from its immediate dominator on
- `Quiet.of_edge`: quiet stretches are handed back along edges
-/

namespace HotRegion.Flow

open Ascending (Sorted)

variable {g : Graph} {a b c d p x y : Node} {l : List Node}

namespace Graph

/-- Dominance makes sense everywhere: the edges agree, every node can be reached, and no edge leads
to the entry. -/
structure Rooted (g : Graph) : Prop extends g.WellFormed where
  reachable : ∀ b ∈ g.nodes, g.Reachable b
  preds_entry : g.preds g.entry = []

/-- A node with a predecessor is not the entry. -/
theorem Rooted.ne_entry (hg : g.Rooted) (edge : b ∈ g.succs a) : b ≠ g.entry := by
  intro h
  have hmem := (hg.mem_preds a b).2 edge
  rw [h, hg.preds_entry] at hmem
  exact absurd hmem List.not_mem_nil

/-- The dominance frontier of a node: it dominates a predecessor of each node in it, and does not
strictly dominate the node itself. -/
def frontier (g : Graph) (x : Node) : Set Node :=
  {b | ∃ p, b ∈ g.succs p ∧ g.Dominates x p ∧ ¬ g.StrictlyDominates x b}

/-- A reachable node does not dominate all its predecessors. -/
theorem Rooted.exists_pred_not_dominated (hb : g.Reachable b) (hne : b ≠ g.entry) :
    ∃ p, b ∈ g.succs p ∧ ¬ g.Dominates b p := by
  obtain ⟨l, hl⟩ := hb
  obtain ⟨k, hk, hbk, _⟩ := hl.first hl.head_mem
  cases hk with
  | refl => exact absurd rfl hne
  | step hk edge => exact ⟨_, edge, fun h => hbk (h _ hk)⟩

end Graph

/-! ## The table -/

/-- Walking up from `p` to a dominator `d` meets the dominators of `p` that lie below `d`. -/
theorem mem_walkUp_iff (hg : g.WellFormed) (fuel : Nat) (hp : g.Reachable p)
    (hd : g.Dominates d p) (hfuel : (g.domSets.get p).length ≤ fuel) :
    x ∈ g.dominatorTree.walkUp d fuel (some p) ↔
      g.Dominates x p ∧ g.StrictlyDominates d x := by
  -- Induction on the fuel, with the way up from `p` to `d` along immediate dominators.
  induction fuel generalizing p with
  | zero =>
    have hpos := Graph.length_domSets_pos hg hp
    omega
  | succ fuel ih =>
    by_cases hpd : p = d
    · -- The walk is at its end, and nothing dominates `d` from below.
      subst hpd
      simp only [DominatorTree.walkUp, if_true, List.not_mem_nil, false_iff]
      rintro ⟨hxp, hpx⟩
      exact hpx.2 (hpx.1.antisymm hxp (hxp.reachable hp))
    · have hdp : g.StrictlyDominates d p := ⟨hd, Ne.symm hpd⟩
      have hpe : p ≠ g.entry := by
        rintro rfl
        exact hdp.2 hd.eq_entry
      obtain ⟨q, hq, hqp, hmax⟩ := Graph.exists_idom hg hp hpe
      have hlt := Graph.length_domSets_lt hg hp hqp
      simp only [DominatorTree.walkUp, if_neg hpd, List.mem_cons, hq]
      rw [ih (hqp.1.reachable hp) (hmax d hdp) (by omega), Graph.dominates_iff_of_idom hg hp hq]
      constructor
      · rintro (rfl | ⟨hxq, hdx⟩)
        · exact ⟨.inl rfl, hdp⟩
        · exact ⟨.inr hxq, hdx⟩
      · rintro ⟨rfl | hxq, hdx⟩
        · exact .inl rfl
        · exact .inr ⟨hxq, hdx⟩

/-- A walk up that stops at `d` is the part before `d` of the walk up to the entry. -/
private theorem walkUp_eq_takeWhile (t : DominatorTree) (d : Node) (fuel : Nat) (b : Node) :
    t.walkUp d fuel (some b) = (t.ancestors fuel b).takeWhile (· != d) := by
  induction fuel generalizing b with
  | zero => rfl
  | succ fuel ih =>
    simp only [DominatorTree.walkUp, DominatorTree.ancestors, List.takeWhile_cons, bne_iff_ne]
    by_cases hbd : b = d
    · simp [hbd]
    · simp only [ne_eq, hbd, not_false_eq_true, if_true]
      cases t.idom b with
      | none => cases fuel <;> rfl
      | some c => exact congrArg (b :: ·) (ih c)

/-- A walk up to a dominator ends there, and not at the bound: the walk up to the entry goes on with
that dominator. -/
theorem exists_walkUp_append (hg : g.WellFormed) (hp : g.Reachable p) (hd : g.Dominates d p) :
    ∃ rest, g.dominatorTree.dominators p =
      g.dominatorTree.walkUp d (g.dominatorTree.idoms.length + 1) (some p) ++ d :: rest := by
  have hmem : d ∈ g.dominatorTree.dominators p := (DominatorTree.mem_dominators hg hp).2 hd
  obtain ⟨l, rest, heq, hdl⟩ := List.eq_append_cons_of_mem hmem
  have hall : ∀ x ∈ l, (x != d) = true := by
    intro x hx
    rw [bne_iff_ne]
    rintro rfl
    exact hdl hx
  have hwalk : g.dominatorTree.walkUp d (g.dominatorTree.idoms.length + 1) (some p) = l := by
    rw [walkUp_eq_takeWhile]
    change (g.dominatorTree.dominators p).takeWhile (· != d) = l
    rw [heq, List.takeWhile_append_of_pos hall]
    simp
  exact ⟨rest, by rw [hwalk]; exact heq⟩

/-- The frontier that is computed for a node is listed for it. -/
private theorem lookup_frontiers {f : Node → List Node} {nodes : List Node} (hx : x ∈ nodes) :
    frontierOf (nodes.map fun x => (x, f x)) x = f x := by
  unfold frontierOf
  induction nodes with
  | nil => exact absurd hx List.not_mem_nil
  | cons c l ih =>
    by_cases hxc : x = c
    · subst hxc
      simp
    · have hbeq : (x == c) = false := by simpa using hxc
      simp only [List.map_cons, List.lookup_cons, hbeq]
      exact ih ((List.mem_cons.1 hx).resolve_left hxc)

/-- What the table of frontiers lists for a node. -/
theorem mem_frontierOf {t : DominatorTree} (hx : x ∈ g.nodes) :
    b ∈ frontierOf (t.frontiers g) x ↔ b ∈ g.nodes ∧ x ∈ t.joinedBy g b := by
  unfold DominatorTree.frontiers
  rw [lookup_frontiers hx]
  simp only [List.mem_map, List.mem_filter, List.contains_iff_mem]
  constructor
  · rintro ⟨q, ⟨⟨c, hc, rfl⟩, hq⟩, rfl⟩
    exact ⟨hc, hq⟩
  · rintro ⟨hb, hj⟩
    exact ⟨_, ⟨⟨b, hb, rfl⟩, hj⟩, rfl⟩

/-- What is no node has no frontier. -/
theorem frontierOf_eq_nil {t : DominatorTree} (hx : x ∉ g.nodes) :
    frontierOf (t.frontiers g) x = [] := by
  unfold frontierOf DominatorTree.frontiers
  rw [List.lookup_eq_none_iff.2]
  · rfl
  · intro q hq
    obtain ⟨c, hc, rfl⟩ := List.mem_map.1 hq
    simpa using fun h : x = c => hx (h ▸ hc)

/-- Every node has one frontier. -/
theorem keys_frontiers (t : DominatorTree) (g : Graph) :
    (t.frontiers g).map Prod.fst = g.nodes := by
  simp [DominatorTree.frontiers, Function.comp_def]

/-- Only nodes with a predecessor lie in a frontier. -/
theorem mem_nodes_of_mem_frontierOf {t : DominatorTree} (h : b ∈ frontierOf (t.frontiers g) x) :
    b ∈ g.nodes ∧ g.preds b ≠ [] := by
  by_cases hx : x ∈ g.nodes
  · obtain ⟨hb, hj⟩ := (mem_frontierOf hx).1 h
    refine ⟨hb, fun hnil => ?_⟩
    unfold DominatorTree.joinedBy at hj
    rw [hnil] at hj
    exact absurd hj List.not_mem_nil
  · rw [frontierOf_eq_nil hx] at h
    exact absurd h List.not_mem_nil

/-- The frontier table is complete: if `x` dominates a predecessor of `b` but does not strictly
dominate `b`, then `b` lies in the frontier of `x`. -/
theorem mem_frontierOf_of_pred (hg : g.Rooted) (edge : b ∈ g.succs p) (hx : g.Dominates x p)
    (hb : ¬ g.StrictlyDominates x b) :
    b ∈ frontierOf (g.dominatorTree.frontiers g) x := by
  have hp : g.Reachable p := hg.reachable p (hg.source_mem p b edge)
  have hbr : g.Reachable b := hp.succ edge
  have hbe : b ≠ g.entry := hg.ne_entry edge
  obtain ⟨d, hd, hdb, hmax⟩ := Graph.exists_idom hg.toWellFormed hbr hbe
  have hpb : p ∈ g.preds b := (hg.mem_preds p b).2 edge
  -- If `x` dominated the immediate dominator it would dominate `b` strictly.
  have hxd : ¬ g.Dominates x d := by
    intro hxd
    refine hb ⟨hxd.trans hdb.1, fun heq => hdb.2 ?_⟩
    exact hdb.1.antisymm (heq ▸ hxd) hbr
  refine (mem_frontierOf ((hx.reachable hp).mem_nodes hg.toWellFormed)).2
    ⟨hbr.mem_nodes hg.toWellFormed, ?_⟩
  unfold DominatorTree.joinedBy
  -- So the walk up from `p` meets `x` before it comes to `d`.
  have hwalk : x ∈ g.dominatorTree.walkUp d (g.dominatorTree.idoms.length + 1) (some p) := by
    have hdp : g.Dominates d p := hdb.1.of_succ hdb.2 edge
    rw [mem_walkUp_iff hg.toWellFormed _ hp hdp (DominatorTree.length_domSets_le_bound
      hg.toWellFormed hp)]
    rcases hdp.total hx hp with hdx | hxd'
    · exact ⟨hx, hdx, fun heq => hxd (heq ▸ Graph.Dominates.refl g d)⟩
    · exact absurd hxd' hxd
  rcases hpreds : g.preds b with _ | ⟨q, _ | ⟨r, rest⟩⟩
  · rw [hpreds] at hpb
    exact absurd hpb List.not_mem_nil
  · -- With a single predecessor, what dominates it strictly dominates the node.
    exfalso
    rw [hpreds, List.mem_singleton] at hpb
    have hdom : g.Dominates x b := Graph.Dominates.of_preds hbe fun c hc => by
      have hcq : c ∈ g.preds b := (hg.mem_preds c b).2 hc
      rw [hpreds, List.mem_singleton] at hcq
      rw [hcq, ← hpb]
      exact hx
    refine hb ⟨hdom, fun heq => ?_⟩
    obtain ⟨r, hr, hnot⟩ := Graph.Rooted.exists_pred_not_dominated hbr hbe
    have hrq : r ∈ g.preds b := (hg.mem_preds r b).2 hr
    rw [hpreds, List.mem_singleton] at hrq
    rw [hrq, ← hpb, ← heq] at hnot
    exact hnot hx
  · simp only [hd]
    exact List.mem_flatMap.2 ⟨p, hpreds ▸ hpb, hwalk⟩

/-- The frontier table holds nothing else: what is met on the way from a predecessor of `b` up to the
immediate dominator of `b` does not strictly dominate `b`. -/
theorem mem_frontier_of_mem_frontierOf (hg : g.Rooted)
    (h : b ∈ frontierOf (g.dominatorTree.frontiers g) x) : b ∈ g.frontier x := by
  have hx : x ∈ g.nodes := by
    refine Classical.byContradiction fun hx => ?_
    rw [frontierOf_eq_nil hx] at h
    exact List.not_mem_nil h
  obtain ⟨hb, hj⟩ := (mem_frontierOf hx).1 h
  have hbr := hg.reachable b hb
  unfold DominatorTree.joinedBy at hj
  split at hj
  · rename_i d hpreds hidom
    obtain ⟨p, hp, hwalk⟩ := List.mem_flatMap.1 hj
    obtain ⟨hdb, hmax⟩ := Graph.idom_spec hg.toWellFormed hbr hidom
    have edge : b ∈ g.succs p := (hg.mem_preds p b).1 (hpreds ▸ hp)
    have hpr := hg.reachable p (hg.source_mem p b edge)
    have hdp : g.Dominates d p := hdb.1.of_succ hdb.2 edge
    rw [mem_walkUp_iff hg.toWellFormed _ hpr hdp (DominatorTree.length_domSets_le_bound
      hg.toWellFormed hpr)] at hwalk
    obtain ⟨hxp, hdx⟩ := hwalk
    refine ⟨p, edge, hxp, fun hxb => ?_⟩
    -- A strict dominator of `b` dominates `d`, but `x` lies strictly below `d`.
    have hxd : g.Dominates x d := hmax x hxb
    exact hdx.2 (hdx.1.antisymm hxd (hxp.reachable hpr))
  · exact absurd hj List.not_mem_nil

/-- The frontier table is exact. -/
theorem mem_frontierOf_iff (hg : g.Rooted) :
    b ∈ frontierOf (g.dominatorTree.frontiers g) x ↔ b ∈ g.frontier x := by
  constructor
  · exact mem_frontier_of_mem_frontierOf hg
  · rintro ⟨p, edge, hxp, hxb⟩
    exact mem_frontierOf_of_pred hg edge hxp hxb

/-- Every row of the frontier table ascends. -/
theorem sorted_frontierOf (hg : g.WellFormed) (t : DominatorTree) (x : Node) :
    Sorted id (frontierOf (t.frontiers g) x) := by
  by_cases hx : x ∈ g.nodes
  · unfold DominatorTree.frontiers
    rw [lookup_frontiers hx, List.filter_map, List.map_map]
    simpa [Function.comp_def, Sorted] using List.Pairwise.filter _ hg.sorted
  · rw [frontierOf_eq_nil hx]
    exact .nil

/-- The iterated frontier is the least set that holds the frontiers of the definitions and of its own
members. -/
theorem isLeast_iteratedFrontier (hg : g.Rooted) (defs : List Node) :
    IsLeast {F : Set Node | ∀ x, x ∈ defs ∨ x ∈ F → g.frontier x ⊆ F}
      {b | b ∈ iteratedFrontier (g.dominatorTree.frontiers g) defs} := by
  have hkeys := keys_frontiers g.dominatorTree g
  constructor
  · intro x hx b hb
    refine mem_iteratedFrontier_of_mem (hkeys ▸ hg.sorted) (fun z w hw => ?_) hx
      ((mem_frontierOf_iff hg).2 hb)
    rw [hkeys]
    exact (mem_nodes_of_mem_frontierOf hw).1
  · intro F hF b hb
    apply iteratedFrontier_induction (P := (· ∈ F)) ?_ hb
    intro x y hx hy
    exact hF x hx ((mem_frontierOf_iff hg).1 hy)

/-! ## Quiet stretches -/

/-- No node that `touch` holds of lies on the way from `d` to `c`: no path that leads to `c` along
at least one edge and avoids `d` starts in such a node. -/
def Quiet (g : Graph) (touch : Node → Prop) (d c : Node) : Prop :=
  ∀ x l, g.Path x c l → 2 ≤ l.length → d ∉ l → ¬ touch x

/-- Quiet stretches are handed back along edges. -/
theorem Quiet.of_edge {touch : Node → Prop} (h : Quiet g touch d b) (edge : b ∈ g.succs a)
    (hda : d ≠ a) (hdb : d ≠ b) : ¬ touch a ∧ Quiet g touch d a := by
  refine ⟨h a [b, a] (Graph.Path.refl.step edge) (by simp) (by simp [hda, hdb]), ?_⟩
  intro x l hl hlen hdl
  exact h x (b :: l) (hl.step edge) (by simp; omega) (by simp [hdb, hdl])

/-- On a path along which the strict dominance of `x` ends, there is a last edge inside it. -/
private theorem exists_exit_edge (h : g.Path x c l) (hlen : 2 ≤ l.length)
    (hc : ¬ g.StrictlyDominates x c) :
    ∃ p y m, y ∈ g.succs p ∧ g.Dominates x p ∧ ¬ g.StrictlyDominates x y ∧ g.Path y c m ∧
      (∀ z ∈ m, z ∈ l) ∧ m.length < l.length := by
  induction h with
  | refl => simp at hlen
  | @step b c l h edge ih =>
    by_cases hxb : g.Dominates x b
    · exact ⟨b, c, [c], edge, hxb, hc, .refl, by simp, by simp at hlen ⊢; omega⟩
    · have hlen' : 2 ≤ l.length := by
        cases h with
        | refl => exact absurd (Graph.Dominates.refl g x) hxb
        | step h' _ => cases h' <;> simp
      obtain ⟨p, y, m, hpy, hxp, hxy, hm, hml, hlt⟩ := ih hlen' fun hs => hxb hs.1
      refine ⟨p, y, c :: m, hpy, hxp, hxy, hm.step edge, ?_, by simpa using hlt⟩
      intro z hz
      rcases List.mem_cons.1 hz with rfl | hz
      · exact List.mem_cons_self
      · exact List.mem_cons_of_mem _ (hml z hz)

/-- If a set of merges is closed under frontiers, a node that is not in it is quiet from its
immediate dominator on: neither a definition nor a merge lies between. -/
theorem quiet_of_not_mem (hg : g.Rooted) {merge touch : Node → Prop}
    (hclosed : ∀ x y, touch x → y ∈ frontierOf (g.dominatorTree.frontiers g) x → merge y)
    (hsub : ∀ y, merge y → touch y) (hc : g.Reachable c)
    (hd : g.dominatorTree.idom c = some d) (hmerge : ¬ merge c) : Quiet g touch d c := by
  obtain ⟨hdc, hmax⟩ := Graph.idom_spec hg.toWellFormed hc hd
  intro x l
  -- Induction on the length of the path; each step goes on at the merge where dominance ends.
  induction hn : l.length using Nat.strongRecOn generalizing x l with
  | _ n ih =>
    intro hl hlen hdl htouch
    have hcl : c ≠ d := Ne.symm hdc.2
    have hnot : ¬ g.StrictlyDominates x c := by
      intro hxc
      have hdx : g.Dominates d x := by
        intro k hk
        obtain ⟨m, hm, hmem⟩ := hk.trans hl
        exact ((hmem d).1 (hdc.1 m hm)).resolve_right hdl
      have heq := (hmax x hxc).antisymm hdx (hdc.1.reachable hc)
      exact hdl (heq ▸ hl.start_mem)
    subst hn
    obtain ⟨p, y, m, edge, hxp, hxy, hm, hml, hlt⟩ := exists_exit_edge hl hlen hnot
    have hmy : merge y := hclosed x y htouch (mem_frontierOf_of_pred hg edge hxp hxy)
    by_cases hmlen : 2 ≤ m.length
    · exact ih m.length hlt y m rfl hm hmlen (fun h => hdl (hml d h)) (hsub y hmy)
    · cases hm with
      | refl => exact hmerge hmy
      | step h' _ => cases h' <;> simp at hmlen

end HotRegion.Flow
