import HotRegion.Proofs.Region.Dominators

/-!
# Reaching definitions

Merges are placed so that every register has one definition that reaches each block. Where a
register is not merged, no block between the immediate dominator and the block gives it a value, so
the last value on any path is the one found by walking up the dominator tree.

## Key results

- `Path.cut`: a path is cut at any of its nodes
- `exists_reaching`: outside a set of merges that is closed under frontiers, the last node on a path
  that gives a value is the first one up the dominator tree
- `placePhis_reaching`: placing merges gives every register a unique reaching definition
-/

namespace HotRegion.Flow.Graph

variable {g : Graph} {a b c d x : Node} {l m : List Node} {merge touch : Node → Prop}
  {gives : Node → Bool}

/-! ## Paths -/

/-- A path is cut at any of its nodes. -/
theorem Path.cut (h : Path g a b (m ++ x :: l)) :
    Path g a x (x :: l) ∧ Path g x b (m ++ [x]) := by
  induction m generalizing b with
  | nil =>
    cases h with
    | refl => exact ⟨.refl, .refl⟩
    | step h edge => exact ⟨h.step edge, .refl⟩
  | cons c m ih =>
    rw [List.cons_append] at h
    generalize hrest : m ++ x :: l = rest at h
    cases h with
    | refl => simp at hrest
    | step h edge =>
      obtain ⟨hfrom, hto⟩ := ih (hrest ▸ h)
      exact ⟨hfrom, hto.step edge⟩

/-- No path comes back to the entry. -/
theorem Rooted.eq_nil_of_path (hg : g.Rooted) (h : Path g a g.entry (g.entry :: l)) : l = [] := by
  generalize hb : g.entry = b at h
  cases h with
  | refl => rfl
  | step _ edge => exact absurd hb.symm (hg.ne_entry edge)

/-! ## The last value on a path -/

/-- Before a quiet node, the way back along a path to its immediate dominator meets no node that
gives a value. -/
private theorem exists_quiet_part (hg : g.Rooted) (hgives : ∀ x, gives x = true ↔ x = g.entry ∨ touch x)
    (hc : g.Reachable c) (hd : g.dominatorTree.idom c = some d) (hquiet : Quiet g touch d c)
    (hpath : Path g g.entry c (c :: l)) :
    ∃ m k, l = m ++ d :: k ∧ m.find? gives = none ∧ Path g g.entry d (d :: k) := by
  obtain ⟨hdc, -⟩ := idom_spec hg.toWellFormed hc hd
  have hdl : d ∈ l := (List.mem_cons.1 (hdc.1 _ hpath)).resolve_left hdc.2
  obtain ⟨m, k, rfl, hdm⟩ := List.eq_append_cons_of_mem hdl
  refine ⟨m, k, rfl, List.find?_eq_none.2 fun x hx hgive => ?_, (hpath.cut (m := c :: m)).1⟩
  obtain ⟨m₁, m₂, rfl⟩ := List.append_of_mem hx
  have hsplit : Path g g.entry c ((c :: m₁) ++ x :: (m₂ ++ d :: k)) := by simpa using hpath
  obtain ⟨hto, hfrom⟩ := hsplit.cut
  rcases (hgives x).1 hgive with rfl | htouch
  · exact absurd (hg.eq_nil_of_path hto) (by simp)
  · refine hquiet x _ hfrom (by simp) ?_ htouch
    simp only [List.mem_append, List.mem_cons, not_or] at hdm
    simp [hdc.2, hdm.1, hdm.2.1]

/-- If the merges are closed under frontiers and give values, then before a node without a merge the
last node on a path that gives a value is the same for all paths: the first one that walking up the
dominator tree meets. -/
theorem exists_reaching (hg : g.Rooted) (hgives : ∀ x, gives x = true ↔ x = g.entry ∨ touch x)
    (hclosed : ∀ x y, touch x → y ∈ frontierOf (g.dominatorTree.frontiers g) x → merge y)
    (hsub : ∀ y, merge y → touch y) (hc : g.Reachable c) (hne : c ≠ g.entry)
    (hmerge : ¬ merge c) :
    ∃ d last, g.dominatorTree.idom c = some d ∧
      (g.dominatorTree.dominators d).find? gives = some last ∧
      ∀ l, Path g g.entry c (c :: l) → l.find? gives = some last := by
  refine DominatorTree.dominators_induction hg.toWellFormed
    (P := fun c _ => c ≠ g.entry → ¬ merge c → ∃ d last, g.dominatorTree.idom c = some d ∧
      (g.dominatorTree.dominators d).find? gives = some last ∧
      ∀ l, Path g g.entry c (c :: l) → l.find? gives = some last)
    (fun h => absurd rfl h) ?_ hc hne hmerge
  intro c d hc _ hd ih _ hmerge
  have hquiet := quiet_of_not_mem hg hclosed hsub hc hd hmerge
  cases hdgive : gives d with
  | true =>
    refine ⟨d, d, hd, ?_, fun l hl => ?_⟩
    · rw [DominatorTree.dominators, DominatorTree.ancestors, List.find?_cons_of_pos hdgive]
    · obtain ⟨m, k, rfl, hm, -⟩ := exists_quiet_part hg hgives hc hd hquiet hl
      rw [List.find?_append, hm, List.find?_cons_of_pos hdgive]
      rfl
  | false =>
    -- The immediate dominator gives no value itself, so its own last value is the one.
    have hnot : ¬ (d = g.entry ∨ touch d) := fun h => by simp [(hgives d).2 h] at hdgive
    obtain ⟨e, last, he, hfind, hpaths⟩ := ih (fun h => hnot (.inl h)) fun h => hnot (.inr (hsub d h))
    have hdr := (idom_spec hg.toWellFormed hc hd).1.1.reachable hc
    refine ⟨d, last, hd, ?_, fun l hl => ?_⟩
    · rw [DominatorTree.dominators_eq_cons hg.toWellFormed hdr he,
        List.find?_cons_of_neg (by simp [hdgive]), hfind]
    · obtain ⟨m, k, rfl, hm, hk⟩ := exists_quiet_part hg hgives hc hd hquiet hl
      rw [List.find?_append, hm, List.find?_cons_of_neg (by simp [hdgive]), hpaths k hk]
      rfl

end HotRegion.Flow.Graph

namespace HotRegion.Region

open Isa

variable {r : Region} {s x y : Slot} {reg : Tracked} {defs : List Slot}

/-- The block in slot `s` gives the register its value: it is the entry, where every register is
loaded, it defines the register, or it merges the register. -/
def gives (r : Region) (u : Usage) (reg : Tracked) (s : Slot) : Bool :=
  s == entrySlot || (u.defBlocks reg).contains s || (r.phisAt s).contains reg

theorem gives_iff (r : Region) (u : Usage) (reg : Tracked) (s : Slot) :
    r.gives u reg s = true ↔ s = entrySlot ∨ s ∈ u.defBlocks reg ∨ reg ∈ r.phisAt s := by
  simp [gives, or_assoc]

/-- The definitions of a register that has some are listed with it. -/
private theorem exists_defs {u : Usage} (hs : s ∈ u.defBlocks reg) :
    ∃ defs, (reg, defs) ∈ u.defs ∧ s ∈ defs := by
  unfold Usage.defBlocks at hs
  cases hlookup : u.defs.lookup reg with
  | none =>
    rw [hlookup] at hs
    exact absurd hs List.not_mem_nil
  | some defs =>
    obtain ⟨l₁, l₂, heq, -⟩ := List.lookup_eq_some_iff.1 hlookup
    rw [hlookup] at hs
    exact ⟨defs, by simp [heq], hs⟩

/-- Placing merges gives every register a unique reaching definition. In a region whose blocks are
all reachable, whose entry has no predecessor and whose dominators are computed, with no merges yet:
for a block without a merge of a register, the last block before it that gives the register a value
is the same on every path from the entry, and it is the first such block on the way up the dominator
tree from the immediate dominator. -/
theorem placePhis_reaching (r : Region) (u : Usage) (reg : Tracked) (hrooted : r.flowGraph.Rooted)
    (htree : r.tree = some r.flowGraph.dominatorTree) (hphis : ∀ s, r.phisAt s = []) :
    ∃ r' n tree, r.placePhis u = .ok (r', n) ∧ r'.tree = some tree ∧
      ∀ s b, r'.block? s = some b → s ≠ entrySlot → reg ∉ b.phis →
        ∃ d last, tree.idom s = some d ∧
          (tree.dominators d).find? (r'.gives u reg) = some last ∧
          ∀ before, r'.flowGraph.Path entrySlot s (s :: before) →
            before.find? (r'.gives u reg) = some last := by
  obtain ⟨r', n, hok, hm, hmem⟩ := placePhis_eq_ok u htree
  have hgraph : r'.flowGraph = r.flowGraph := hm.toSameGraph.flowGraph
  have hkeys := Flow.keys_frontiers r.flowGraph.dominatorTree r.flowGraph
  refine ⟨r', n, _, hok, hm.tree.trans htree, fun s b hb hne hreg => ?_⟩
  -- The merges are closed under the frontier, both of definitions and of merges.
  have hclosed : ∀ x y, x ∈ u.defBlocks reg ∨ reg ∈ r'.phisAt x →
      y ∈ Flow.frontierOf (r.flowGraph.dominatorTree.frontiers r.flowGraph) x →
      reg ∈ r'.phisAt y := by
    intro x y hx hy
    have hfound : ∃ defs, (reg, defs) ∈ u.defs ∧ (x ∈ defs ∨
        x ∈ Flow.iteratedFrontier (r.flowGraph.dominatorTree.frontiers r.flowGraph) defs) := by
      rcases hx with hx | hx
      · obtain ⟨defs, hdefs, hxdefs⟩ := exists_defs hx
        exact ⟨defs, hdefs, .inl hxdefs⟩
      · rw [hmem, hphis] at hx
        obtain ⟨defs, hdefs, hxfront, -⟩ := hx.resolve_left List.not_mem_nil
        exact ⟨defs, hdefs, .inr hxfront⟩
    obtain ⟨defs, hdefs, hx⟩ := hfound
    have hlive := mem_nodes.1 (Flow.mem_nodes_of_mem_frontierOf hy).1
    refine (hmem y reg).2 (.inr ⟨defs, hdefs, ?_, hlive⟩)
    refine Flow.mem_iteratedFrontier_of_mem (hkeys ▸ hrooted.sorted) (fun z w hw => ?_) hx hy
    rw [hkeys]
    exact (Flow.mem_nodes_of_mem_frontierOf hw).1
  -- So what holds of graphs with such merges gives the last definition.
  have hreach : r.flowGraph.Reachable s := by
    rw [← hgraph]
    exact (hgraph ▸ hrooted).reachable s (mem_nodes.2 ⟨b, hb⟩)
  have hnot : reg ∉ r'.phisAt s := by simpa [phisAt, hb] using hreg
  rw [hgraph]
  exact Flow.Graph.exists_reaching hrooted (gives_iff r' u reg) hclosed (fun _ => Or.inr) hreach hne
    hnot

/-- A block that leads to itself and to another block. -/
def selfLoop : Region where
  entryAddr := 0x1000
  slots := #[some { Block.entryBlock with succs := [1] },
    some { Block.entryBlock with entry := 0x1000, succs := [1, 2], preds := [0, 1] },
    some { Block.entryBlock with entry := 0x2000, preds := [1] }]
  free := []
  byAddr := [(0x1000, 1), (0x2000, 2)]
  tree := none
  fpTouched := .none

/-- The instruction count, defined in the loop, is merged there and reaches the second block from
there, however often the loop was taken. -/
theorem placePhis_reaching_selfLoop :
    ∃ r' n, selfLoop.computeDominators.placePhis { defs := [(.icnt, [1])] } = .ok (r', n) ∧
      ∀ before, r'.flowGraph.Path entrySlot 2 (2 :: before) →
        before.find? (r'.gives { defs := [(.icnt, [1])] } .icnt) = some 1 := by
  have hsymm : ∀ s t, t ∈ selfLoop.succs s ↔ s ∈ selfLoop.preds t :=
    symmetric_of_blocks (by decide +kernel)
  have hreach := reachable_of_blocks ⟨_, rfl⟩ hsymm (by decide +kernel)
  have hrooted : selfLoop.flowGraph.Rooted := rooted_of_symmetric ⟨_, rfl⟩ hsymm hreach rfl
  have hgraph := (sameGraph_computeDominators selfLoop).flowGraph
  obtain ⟨r', n, tree, hok, htree, hreach⟩ := placePhis_reaching selfLoop.computeDominators
    { defs := [(.icnt, [1])] } .icnt (hgraph ▸ hrooted) (by rw [hgraph]; rfl) (by
      intro s
      rcases s with _ | _ | _ | s <;> rfl)
  refine ⟨r', n, hok, fun before hbefore => ?_⟩
  cases hok
  cases htree
  obtain ⟨d, last, -, -, hpaths⟩ := hreach 2 _ rfl (by decide) (by decide +kernel)
  rw [hpaths before hbefore, ← hpaths [1, 0] (.step (.step .refl (by decide)) (by decide))]
  decide +kernel

end HotRegion.Region
