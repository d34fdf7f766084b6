import HotRegion.Proofs.Flow.DominatorTree
import Mathlib.Data.List.Chain
import Mathlib.Data.List.Nodup
import Mathlib.Logic.Function.Iterate

/-!
# Walks over the dominator tree

A node is walked up from to the entry, along immediate dominators, and the tree is walked down in
preorder. Both walks are bounded by the number of nodes; the dominators of a node are counted by
its dominator set, which grows with every step down, so the bounds are never what ends a walk.

## Key results

- `dominators_eq_cons` / `dominators_induction`: one step of the walk up, and induction along it
- `mem_dominators` / `isChain_dominators` / `getLast?_dominators`: walking up from a reachable node
  meets its dominators, one immediate dominator after the other, and ends at the entry
- `mem_subtree` / `nodup_subtree` / `sublist_subtree`: the subtree of a node lists the nodes it
  dominates, each once and after its immediate dominator
- `DominatorTree.Exact`: all a dominator tree promises, gathered in `exact_dominatorTree`
-/

namespace HotRegion.Flow

variable {g : Graph} {a b c d x : Node} {fuel : Nat}

/-! ## Rounds -/

namespace Graph

/-- Settling is doing some number of rounds. -/
theorem exists_iterate_settleDoms (g : Graph) (fuel : Nat) (sets : DomSets) :
    ∃ n, g.refineDoms^[n] sets = g.settleDoms fuel sets := by
  induction fuel generalizing sets with
  | zero => exact ⟨0, rfl⟩
  | succ fuel ih =>
    unfold settleDoms
    simp only
    split
    · exact ⟨0, rfl⟩
    · obtain ⟨n, hn⟩ := ih (g.refineDoms sets)
      exact ⟨n + 1, hn⟩

/-- A reachable node has a dominator, itself. -/
theorem length_domSets_pos (hg : g.WellFormed) (hb : g.Reachable b) :
    0 < (g.domSets.get b).length :=
  List.length_pos_of_mem ((mem_domSets_iff hg hb).2 (.refl g b))

/-- The entry alone has no immediate dominator. -/
theorem idom_eq_none_iff (hg : g.WellFormed) (hb : g.Reachable b) :
    g.dominatorTree.idom b = none ↔ b = g.entry := by
  constructor
  · intro hnone
    refine Classical.byContradiction fun hne => ?_
    obtain ⟨d, hd, -⟩ := exists_idom hg hb hne
    rw [hnone] at hd
    cases hd
  · rintro rfl
    exact idom_entry hg

/-- The immediate dominator is the one strict dominator that all strict dominators dominate. -/
theorem idom_eq_some_iff (hg : g.WellFormed) (hb : g.Reachable b) :
    g.dominatorTree.idom b = some d ↔
      g.StrictlyDominates d b ∧ ∀ a, g.StrictlyDominates a b → g.Dominates a d := by
  refine ⟨idom_spec hg hb, fun ⟨hdb, hmax⟩ => ?_⟩
  have hne : b ≠ g.entry := by
    rintro rfl
    exact hdb.2 hdb.1.eq_entry
  obtain ⟨c, hc, hcb, hcmax⟩ := exists_idom hg hb hne
  have hcd : c = d := (hmax c hcb).antisymm (hcmax d hdb) (hdb.1.reachable hb)
  rw [hc, hcd]

/-- What dominates a node is the node itself or dominates its immediate dominator. -/
theorem dominates_iff_of_idom (hg : g.WellFormed) (hb : g.Reachable b)
    (hd : g.dominatorTree.idom b = some d) :
    g.Dominates a b ↔ a = b ∨ g.Dominates a d := by
  obtain ⟨hdb, hmax⟩ := idom_spec hg hb hd
  constructor
  · intro hab
    by_cases heq : a = b
    · exact .inl heq
    · exact .inr (hmax a ⟨hab, heq⟩)
  · rintro (rfl | had)
    · exact .refl g a
    · exact had.trans hdb.1

/-- What a node dominates is the node itself or dominated by a node right below it. -/
theorem dominates_iff_children (hg : g.WellFormed) (hx : g.Reachable x) :
    g.Dominates b x ↔ x = b ∨ ∃ c ∈ g.dominatorTree.children b, g.Dominates c x := by
  constructor
  · intro hbx
    by_cases heq : b = x
    · exact .inl heq.symm
    · obtain ⟨c, hc, hcx⟩ := exists_child hg hx ⟨hbx, heq⟩
      have hcmem := (hcx.reachable hx).mem_nodes hg
      exact .inr ⟨c, DominatorTree.mem_children.2 ⟨hcmem, hc⟩, hcx⟩
  · rintro (rfl | ⟨c, hc, hcx⟩)
    · exact .refl g x
    · have hidom := (DominatorTree.mem_children.1 hc).2
      exact (idom_spec hg (hcx.reachable hx) hidom).1.1.trans hcx

end Graph

namespace DominatorTree

/-! ## Up -/

/-- The walk is the same for every bound that allows it to meet all dominators. -/
theorem ancestors_congr {fuel' : Nat} (hg : g.WellFormed) (hb : g.Reachable b)
    (h : (g.domSets.get b).length ≤ fuel) (h' : (g.domSets.get b).length ≤ fuel') :
    g.dominatorTree.ancestors fuel b = g.dominatorTree.ancestors fuel' b := by
  induction fuel generalizing b fuel' with
  | zero =>
    have hpos := Graph.length_domSets_pos hg hb
    omega
  | succ fuel ih =>
    cases fuel' with
    | zero =>
      have hpos := Graph.length_domSets_pos hg hb
      omega
    | succ fuel' =>
      simp only [ancestors]
      cases hd : g.dominatorTree.idom b with
      | none => rfl
      | some d =>
        obtain ⟨hdb, -⟩ := Graph.idom_spec hg hb hd
        have hdr := hdb.1.reachable hb
        have hlt := Graph.length_domSets_lt hg hb hdb
        exact congrArg (b :: ·) (ih hdr (by omega) (by omega))

/-- The bound of `dominators` allows to meet all of them. -/
theorem length_domSets_le_bound (hg : g.WellFormed) (hb : g.Reachable b) :
    (g.domSets.get b).length ≤ g.dominatorTree.idoms.length + 1 := by
  have := Graph.length_domSets_le hg hb
  simp only [Graph.dominatorTree, List.length_map]
  omega

/-- The walk from a node goes on with the walk from its immediate dominator. -/
theorem dominators_eq_cons (hg : g.WellFormed) (hb : g.Reachable b)
    (hd : g.dominatorTree.idom b = some d) :
    g.dominatorTree.dominators b = b :: g.dominatorTree.dominators d := by
  obtain ⟨hdb, -⟩ := Graph.idom_spec hg hb hd
  have hdr := hdb.1.reachable hb
  have hlt := Graph.length_domSets_lt hg hb hdb
  have hle := length_domSets_le_bound hg hb
  unfold dominators
  rw [ancestors, hd]
  exact congrArg (b :: ·) (ancestors_congr hg hdr (by omega) (by omega))

theorem dominators_entry (hg : g.WellFormed) : g.dominatorTree.dominators g.entry = [g.entry] := by
  unfold dominators
  rw [ancestors, Graph.idom_entry hg]

/-- A property of the walk up from a reachable node, by the steps of the walk. -/
theorem dominators_induction (hg : g.WellFormed) {P : Node → List Node → Prop}
    (entry : P g.entry [g.entry])
    (step : ∀ b d, g.Reachable b → b ≠ g.entry → g.dominatorTree.idom b = some d →
      P d (g.dominatorTree.dominators d) → P b (b :: g.dominatorTree.dominators d))
    (hb : g.Reachable b) : P b (g.dominatorTree.dominators b) := by
  obtain ⟨k, hk⟩ : ∃ k, (g.domSets.get b).length = k := ⟨_, rfl⟩
  induction k using Nat.strongRecOn generalizing b with
  | _ k ih =>
    by_cases hbe : b = g.entry
    · rw [hbe, dominators_entry hg]
      exact entry
    · obtain ⟨d, hd, hdb, -⟩ := Graph.exists_idom hg hb hbe
      have hlt := Graph.length_domSets_lt hg hb hdb
      rw [dominators_eq_cons hg hb hd]
      exact step b d hb hbe hd (ih _ (hk ▸ hlt) (hdb.1.reachable hb) rfl)

/-- The walk up from a node meets exactly its dominators. -/
theorem mem_dominators (hg : g.WellFormed) (hb : g.Reachable b) :
    a ∈ g.dominatorTree.dominators b ↔ g.Dominates a b := by
  refine dominators_induction hg (P := fun b l => a ∈ l ↔ g.Dominates a b) ?_ ?_ hb
  · rw [List.mem_singleton]
    exact ⟨fun h => h ▸ .refl g g.entry, Graph.Dominates.eq_entry⟩
  · intro b d hb _ hd ih
    rw [List.mem_cons, ih, Graph.dominates_iff_of_idom hg hb hd]

/-- The walk starts at the node. -/
theorem head?_dominators (t : DominatorTree) (b : Node) : (t.dominators b).head? = some b := rfl

/-- Each step of the walk leads to the immediate dominator. -/
theorem isChain_dominators (hg : g.WellFormed) (hb : g.Reachable b) :
    (g.dominatorTree.dominators b).IsChain fun x y => g.dominatorTree.idom x = some y := by
  refine dominators_induction hg
    (P := fun _ l => l.IsChain fun x y => g.dominatorTree.idom x = some y) ?_ ?_ hb
  · exact .singleton _
  · intro b d _ _ hd ih
    unfold dominators ancestors at ih ⊢
    exact ih.cons_cons hd

/-- The walk ends at the entry. -/
theorem getLast?_dominators (hg : g.WellFormed) (hb : g.Reachable b) :
    (g.dominatorTree.dominators b).getLast? = some g.entry := by
  refine dominators_induction hg (P := fun _ l => l.getLast? = some g.entry) rfl ?_ hb
  intro b d _ _ _ ih
  rw [List.getLast?_cons, ih]
  rfl

/-! ## Down -/

/-- A bound on the depth that allows to list a whole subtree allows to list those right below. -/
private theorem depth_of_child (hg : g.WellFormed) (hall : ∀ b ∈ g.nodes, g.Reachable b)
    (h : g.nodes.length < fuel + 1 + (g.domSets.get b).length)
    (hc : c ∈ g.dominatorTree.children b) :
    g.Reachable c ∧ g.nodes.length < fuel + (g.domSets.get c).length := by
  obtain ⟨hcmem, hidom⟩ := mem_children.1 hc
  have hcr := hall c hcmem
  have hlt := Graph.length_domSets_lt hg hcr (Graph.idom_spec hg hcr hidom).1
  exact ⟨hcr, by omega⟩

/-- The subtree of a node holds exactly the nodes that it dominates. -/
theorem mem_subtree (hg : g.WellFormed) (hall : ∀ b ∈ g.nodes, g.Reachable b)
    (hb : g.Reachable b) (hfuel : g.nodes.length < fuel + (g.domSets.get b).length) :
    x ∈ g.dominatorTree.subtree fuel b ↔ g.Reachable x ∧ g.Dominates b x := by
  induction fuel generalizing b with
  | zero =>
    have := Graph.length_domSets_le hg hb
    omega
  | succ fuel ih =>
    simp only [subtree, List.mem_cons, List.mem_flatMap]
    constructor
    · rintro (rfl | ⟨c, hc, hx⟩)
      · exact ⟨hb, .refl g x⟩
      · obtain ⟨hcr, hcfuel⟩ := depth_of_child hg hall hfuel hc
        obtain ⟨hxr, hcx⟩ := (ih hcr hcfuel).1 hx
        exact ⟨hxr, (Graph.dominates_iff_children hg hxr).2 (.inr ⟨c, hc, hcx⟩)⟩
    · rintro ⟨hxr, hbx⟩
      refine ((Graph.dominates_iff_children hg hxr).1 hbx).imp_right fun ⟨c, hc, hcx⟩ => ?_
      obtain ⟨hcr, hcfuel⟩ := depth_of_child hg hall hfuel hc
      exact ⟨c, hc, (ih hcr hcfuel).2 ⟨hxr, hcx⟩⟩

/-- The subtree of a node lists no node twice. -/
theorem nodup_subtree (hg : g.WellFormed) (hall : ∀ b ∈ g.nodes, g.Reachable b)
    (hb : g.Reachable b) (hfuel : g.nodes.length < fuel + (g.domSets.get b).length) :
    (g.dominatorTree.subtree fuel b).Nodup := by
  induction fuel generalizing b with
  | zero => exact List.nodup_nil
  | succ fuel ih =>
    have hmem : ∀ c ∈ g.dominatorTree.children b, ∀ x ∈ g.dominatorTree.subtree fuel c,
        g.Reachable x ∧ g.Dominates c x := fun c hc x hx =>
      have ⟨hcr, hcfuel⟩ := depth_of_child hg hall hfuel hc
      (mem_subtree hg hall hcr hcfuel).1 hx
    rw [subtree, List.nodup_cons]
    constructor
    · -- A node below that listed `b` again would dominate its own immediate dominator.
      intro hbelow
      obtain ⟨c, hc, hbc⟩ := List.mem_flatMap.1 hbelow
      obtain ⟨-, hcb⟩ := hmem c hc b hbc
      obtain ⟨hcr, -⟩ := depth_of_child hg hall hfuel hc
      obtain ⟨hbc', -⟩ := Graph.idom_spec hg hcr (mem_children.1 hc).2
      exact hbc'.2 (hbc'.1.antisymm hcb hcr)
    · rw [List.nodup_flatMap]
      refine ⟨fun c hc => ?_, ?_⟩
      · obtain ⟨hcr, hcfuel⟩ := depth_of_child hg hall hfuel hc
        exact ih hcr hcfuel
      · refine (nodup_children hg b).imp_of_mem fun {c e} hc he hne => ?_
        -- A node in two subtrees would make their roots the same.
        intro x hxc hxe
        obtain ⟨hxr, hcx⟩ := hmem c hc x hxc
        obtain ⟨-, hex⟩ := hmem e he x hxe
        exact hne (Graph.eq_of_idom_eq hg hxr (mem_children.1 hc).2 (mem_children.1 he).2 hcx hex)

/-- Below the root of a subtree, every node is listed after its immediate dominator. -/
theorem sublist_subtree (hg : g.WellFormed) (hall : ∀ b ∈ g.nodes, g.Reachable b)
    (hfuel : g.nodes.length < fuel + (g.domSets.get b).length)
    (hx : x ∈ g.dominatorTree.subtree fuel b) (hne : x ≠ b)
    (hd : g.dominatorTree.idom x = some d) :
    [d, x].Sublist (g.dominatorTree.subtree fuel b) := by
  induction fuel generalizing b with
  | zero => exact absurd hx List.not_mem_nil
  | succ fuel ih =>
    rw [subtree] at hx ⊢
    obtain ⟨c, hc, hxc⟩ := List.mem_flatMap.1 ((List.mem_cons.1 hx).resolve_left hne)
    obtain ⟨-, hcfuel⟩ := depth_of_child hg hall hfuel hc
    by_cases hxeq : x = c
    · subst hxeq
      rw [(mem_children.1 hc).2, Option.some.injEq] at hd
      rw [← hd]
      exact .cons_cons _ (List.singleton_sublist.2 (List.mem_flatMap.2 ⟨x, hc, hxc⟩))
    · have hsub := ih hcfuel hxc hxeq
      have hpart : (g.dominatorTree.subtree fuel c).Sublist
          ((g.dominatorTree.children b).flatMap (g.dominatorTree.subtree fuel)) := by
        rw [List.flatMap_def]
        exact List.sublist_flatten_of_mem (List.mem_map_of_mem hc)
      exact (hsub.trans hpart).cons _

/-! ## The whole tree -/

/-- What a dominator tree promises about the graph it was built from. -/
structure Exact (t : DominatorTree) (g : Graph) : Prop where
  /-- The rounds that compute the dominator sets end: after some of them another one changes
  nothing, and the tree is read off the sets at that point. -/
  settles : ∃ n, g.refineDoms^[n] g.initialDoms = g.domSets ∧ g.refineDoms g.domSets = g.domSets
  dominates_iff : ∀ a b, g.Reachable b → (t.dominates a b = true ↔ g.Dominates a b)
  idom_none : ∀ b, g.Reachable b → (t.idom b = none ↔ b = g.entry)
  idom_some : ∀ b d, g.Reachable b → (t.idom b = some d ↔
    g.StrictlyDominates d b ∧ ∀ a, g.StrictlyDominates a b → g.Dominates a d)
  /-- Walking up from a node follows immediate dominators and ends at the entry. -/
  walk : ∀ b, g.Reachable b → (t.dominators b).head? = some b ∧
    (t.dominators b).IsChain (fun x y => t.idom x = some y) ∧
    (t.dominators b).getLast? = some g.entry
  /-- If every node is reachable, the preorder lists each node once, after its immediate
  dominator. -/
  preorder : (∀ b ∈ g.nodes, g.Reachable b) → t.preorder.Nodup ∧
    (∀ b, b ∈ t.preorder ↔ b ∈ g.nodes) ∧
    ∀ b d, t.idom b = some d → [d, b].Sublist t.preorder

/-- The dominator tree of a well-formed graph is exact. -/
theorem exact_dominatorTree (hg : g.WellFormed) : g.dominatorTree.Exact g where
  settles := by
    obtain ⟨n, hn⟩ := g.exists_iterate_settleDoms (g.nodes.length * g.nodes.length + 1)
      g.initialDoms
    exact ⟨n, hn, Graph.refineDoms_domSets hg⟩
  dominates_iff a b hb := by
    rw [dominates, List.contains_iff_mem]
    exact mem_dominators hg hb
  idom_none b hb := Graph.idom_eq_none_iff hg hb
  idom_some b d hb := Graph.idom_eq_some_iff hg hb
  walk b hb := ⟨head?_dominators _ b, isChain_dominators hg hb, getLast?_dominators hg hb⟩
  preorder hall := by
    have hentry := Graph.Reachable.entry g
    have hpos := Graph.length_domSets_pos hg hentry
    have hbound : g.nodes.length < g.dominatorTree.idoms.length + (g.domSets.get g.entry).length := by
      simp only [Graph.dominatorTree, List.length_map]
      omega
    have hmem : ∀ b, b ∈ g.dominatorTree.preorder ↔ b ∈ g.nodes := by
      intro b
      refine (mem_subtree hg hall hentry hbound).trans ⟨fun h => h.1.mem_nodes hg, fun h => ?_⟩
      exact ⟨hall b h, Graph.dominates_entry g b⟩
    refine ⟨nodup_subtree hg hall hentry hbound, hmem, fun b d hd => ?_⟩
    -- Neither a node outside the graph nor the entry has an immediate dominator.
    have hb : b ∈ g.nodes := by
      refine Classical.byContradiction fun hnot => ?_
      rw [Graph.idom_eq_none hnot] at hd
      cases hd
    refine sublist_subtree hg hall hbound ((hmem b).2 hb) ?_ hd
    rintro rfl
    change g.dominatorTree.idom g.entry = _ at hd
    rw [Graph.idom_entry hg] at hd
    cases hd

end DominatorTree

end HotRegion.Flow
