import HotRegion.Proofs.Region.Changes
import HotRegion.Proofs.Region.Dominators

/-!
# The kept dominator tree

A region keeps the dominator tree that was computed last. Whatever touches an edge or puts in a block
drops the tree. A block without edges is removed without touching an edge, so the tree stays and still
lists the block. Nothing else can go wrong: the kept tree is the one that would be computed anew if and
only if all blocks in it are still there, and for blocks that control can reach it is right in any
case.

## Key results

- `Keeps`, `Change.keeps`: a change drops the tree or only removes blocks without edges
- `kept_tree`: what the tree is worth after any sequence of changes
- `kept_tree_lists_removed`: a tree that lists a removed block
-/

namespace HotRegion.Region

open HotRegion.Flow (DominatorTree Graph Node)
open Machine (Trace)

variable {r r' r₀ r₁ r₂ : Region} {s t : Slot} {b : Block} {addr : UInt32}

/-! ## Regions without some blocks -/

/-- The region without some of its blocks, none of which has an edge. -/
def Thinned (r r' : Region) : Prop :=
  ∀ s, r'.block? s = r.block? s ∨ r'.block? s = none ∧ ∃ b, r.block? s = some b ∧ b.Isolated

namespace Thinned

/-- A region is thinned by nothing. -/
theorem refl (r : Region) : Thinned r r := fun _ => .inl rfl

/-- Thinning twice is thinning. -/
theorem trans (h : Thinned r r₁) (h' : Thinned r₁ r₂) : Thinned r r₂ := by
  intro s
  rcases h s with heq | ⟨hnone, hold⟩
  · rw [← heq]
    exact h' s
  · refine .inr ⟨?_, hold⟩
    rcases h' s with heq' | ⟨hnone', -⟩
    · rw [heq', hnone]
    · exact hnone'

/-- What is left was there before. -/
theorem block? (h : Thinned r r') (hb : r'.block? s = some b) : r.block? s = some b := by
  rcases h s with heq | ⟨hnone, -⟩
  · rw [← heq, hb]
  · rw [hnone] at hb
    cases hb

/-- The blocks that are left have the same successors. -/
theorem succs (h : Thinned r r') (s : Slot) : r'.succs s = r.succs s := by
  rcases h s with heq | ⟨hnone, b, hb, hisolated⟩
  · simp only [Region.succs, flowGraph, heq]
  · rw [succs_of_none hnone, succs_of_block hb, hisolated.1]

/-- The blocks that are left have the same predecessors. -/
theorem preds (h : Thinned r r') (s : Slot) : r'.preds s = r.preds s := by
  rcases h s with heq | ⟨hnone, b, hb, hisolated⟩
  · simp only [Region.preds, flowGraph, heq]
  · rw [preds_of_none hnone, preds_of_block hb, hisolated.2]

/-- If no block is gone the flow graph is the same. -/
theorem flowGraph (h : Thinned r r')
    (hlive : ∀ s b, r.block? s = some b → ∃ b', r'.block? s = some b') :
    r'.flowGraph = r.flowGraph := by
  have hblocks : r'.block? = r.block? := by
    funext s
    rcases h s with heq | ⟨hnone, b, hb, -⟩
    · exact heq
    · obtain ⟨b', hb'⟩ := hlive s b hb
      rw [hnone] at hb'
      cases hb'
  have hnodes : r'.flowGraph.nodes = r.flowGraph.nodes := by
    refine r'.sorted_slots.ext r.sorted_slots fun s => ?_
    refine mem_nodes.trans (Iff.trans ?_ mem_nodes.symm)
    rw [hblocks]
  simp only [Region.flowGraph, hblocks]
  exact congrArg (Flow.Graph.mk _ · _ _) hnodes

end Thinned

/-! ## Changes and the tree -/

/-- The tree is dropped, or it is kept and no more is done than remove blocks without edges. -/
def Keeps (r r' : Region) : Prop := r'.tree = none ∨ r'.tree = r.tree ∧ Thinned r r'

namespace Keeps

/-- A region keeps what it has. -/
theorem refl (r : Region) : Keeps r r := .inr ⟨rfl, .refl r⟩

/-- What is kept in two steps is kept. -/
theorem trans (h : Keeps r r₁) (h' : Keeps r₁ r₂) : Keeps r r₂ := by
  rcases h' with hnone' | ⟨htree', hthin'⟩
  · exact .inl hnone'
  · rcases h with hnone | ⟨htree, hthin⟩
    · exact .inl (htree'.trans hnone)
    · exact .inr ⟨htree'.trans htree, hthin.trans hthin'⟩

/-- A tree that was dropped stays so. -/
theorem tree_none (h : Keeps r r') (hnone : r.tree = none) : r'.tree = none := by
  rcases h with h | ⟨h, -⟩
  · exact h
  · exact h.trans hnone

/-- A loop keeps what each of its steps keeps. -/
theorem foldlM {α : Type} {f : Region → α → Except GraphError Region} {l : List α}
    (hf : ∀ r r' x, f r x = .ok r' → Keeps r r') (hok : l.foldlM f r = .ok r') : Keeps r r' := by
  induction l generalizing r with
  | nil =>
    cases hok
    exact .refl _
  | cons x l ih =>
    rw [List.foldlM_cons] at hok
    obtain ⟨r₁, hok₁, hrest⟩ := Ssa.bind_eq_ok.1 hok
    exact (hf r r₁ x hok₁).trans (ih hrest)

end Keeps

/-- Steps that drop the tree drop it unless there are none. -/
theorem tree_of_foldlM {α : Type} {f : Region → α → Except GraphError Region} {l : List α}
    (hf : ∀ r r' x, f r x = .ok r' → r'.tree = none) (hok : l.foldlM f r = .ok r') :
    l = [] ∧ r' = r ∨ r'.tree = none := by
  cases l with
  | nil =>
    cases hok
    exact .inl ⟨rfl, rfl⟩
  | cons x l =>
    rw [List.foldlM_cons] at hok
    obtain ⟨r₁, hok₁, hrest⟩ := Ssa.bind_eq_ok.1 hok
    exact .inr ((Keeps.foldlM (fun r r' x h => .inl (hf r r' x h)) hrest).tree_none (hf r r₁ x hok₁))

/-- A new edge drops the tree. -/
theorem tree_addEdge (hok : r.addEdge s t = .ok r') : r'.tree = none := by
  obtain ⟨a, -, hok⟩ := Ssa.bind_eq_ok.1 hok
  obtain ⟨c, -, hok⟩ := Ssa.bind_eq_ok.1 hok
  cases hok
  rfl

/-- Taking an edge away drops the tree. -/
theorem tree_removeEdge (hok : r.removeEdge s t = .ok r') : r'.tree = none := by
  obtain ⟨a, -, hok⟩ := Ssa.bind_eq_ok.1 hok
  obtain ⟨-, hok⟩ := Ssa.unless_eq_ok.1 hok
  obtain ⟨c, -, hok⟩ := Ssa.bind_eq_ok.1 hok
  cases hok
  rfl

/-- A new block drops the tree. -/
theorem tree_insertBlock (r : Region) (b : Block) : (r.insertBlock b).1.tree = none := by
  simp only [insertBlock]
  split <;> rfl

/-- The one change that may keep the tree: the removal of a block without edges. -/
theorem keeps_removeBlock (hok : r.removeBlock s = .ok (r', b)) : Keeps r r' := by
  obtain ⟨b₀, hb₀, hok⟩ := Ssa.bind_eq_ok.1 hok
  obtain ⟨r₁, hsuccs, hok⟩ := Ssa.bind_eq_ok.1 hok
  obtain ⟨b₁, hb₁, hok⟩ := Ssa.bind_eq_ok.1 hok
  obtain ⟨r₂, hpreds, hok⟩ := Ssa.bind_eq_ok.1 hok
  obtain ⟨b₂, -, hok⟩ := Ssa.bind_eq_ok.1 hok
  have htree : r'.tree = r₂.tree := by
    cases hok
    split <;> rfl
  have hblocks : r'.block? = ({ r₂ with slots := r₂.slots.setIfInBounds s none } : Region).block? := by
    cases hok
    split <;> rfl
  -- Only the edges taken off before the block drop the tree, first those out of it, then those into it.
  rcases tree_of_foldlM (fun _ _ _ => tree_removeEdge) hpreds with ⟨hnil, rfl⟩ | hnone
  · rcases tree_of_foldlM (fun _ _ _ => tree_removeEdge) hsuccs with ⟨hnil₀, rfl⟩ | hnone
    · obtain rfl : b₀ = b₁ := Except.ok.inj (hb₀.symm.trans hb₁)
      refine .inr ⟨htree, fun x => ?_⟩
      rw [hblocks]
      have hb₀ := block?_of_block hb₀
      by_cases hx : x = s
      · subst hx
        refine .inr ⟨?_, b₀, hb₀, hnil₀, hnil⟩
        simp [Region.block?, lt_size_of_block hb₀]
      · exact .inl (by simp [Region.block?, Ne.symm hx])
    · exact .inl (htree.trans hnone)
  · exact .inl (htree.trans hnone)

/-- Wiring a block adds an edge or does nothing at all. -/
theorem keeps_wireBlock (hok : r.wireBlock s = .ok r') : Keeps r r' := by
  obtain ⟨b, -, hok⟩ := Ssa.bind_eq_ok.1 hok
  refine Keeps.foldlM (fun r r' addr h => ?_) hok
  split at h
  · exact .inl (tree_addEdge h)
  · cases h
    exact .refl _

/-- A split drops the tree. -/
theorem tree_splitAt (hok : r.splitAt s addr = .ok (r', t)) : r'.tree = none := by
  obtain ⟨a, -, hok⟩ := Ssa.bind_eq_ok.1 hok
  obtain ⟨-, hok⟩ := Ssa.unless_eq_ok.1 hok
  split at hok
  · cases hok
  · obtain ⟨-, hok⟩ := Ssa.unless_eq_ok.1 hok
    obtain ⟨r₁, -, hok⟩ := Ssa.bind_eq_ok.1 hok
    obtain ⟨r₂, hadd, hok⟩ := Ssa.bind_eq_ok.1 hok
    cases hok
    exact tree_addEdge hadd

/-- A split of overlapping blocks drops the tree. -/
theorem tree_splitOverlap (hok : r.splitOverlap s t = .ok r') : r'.tree = none := by
  obtain ⟨old, -, hok⟩ := Ssa.bind_eq_ok.1 hok
  obtain ⟨⟨r₁, tail⟩, hsplit, hok⟩ := Ssa.bind_eq_ok.1 hok
  obtain ⟨old₁, -, hok⟩ := Ssa.bind_eq_ok.1 hok
  obtain ⟨new₁, -, hok⟩ := Ssa.bind_eq_ok.1 hok
  -- The split drops the tree, and nothing that follows brings one back.
  have h₁ := tree_splitAt hsplit
  split at hok
  · obtain ⟨⟨r₂, duplicate⟩, hremove, hok⟩ := Ssa.bind_eq_ok.1 hok
    obtain ⟨new₂, -, hok⟩ := Ssa.bind_eq_ok.1 hok
    obtain ⟨r₃, hedges, hok⟩ := Ssa.bind_eq_ok.1 hok
    have h₃ := (Keeps.foldlM (fun _ _ _ h => .inl (tree_addEdge h)) hedges).tree_none
      ((keeps_removeBlock hremove).tree_none h₁)
    exact (keeps_wireBlock hok).tree_none h₃
  · obtain ⟨⟨r₂, gone⟩, -, hok⟩ := Ssa.bind_eq_ok.1 hok
    exact tree_addEdge hok

/-- All rounds together drop the tree, or there is no overlap to split. -/
theorem keeps_splitOverlapsFrom {n m : Nat} (fuel : Nat)
    (hok : splitOverlapsFrom fuel r n = .ok (r', m)) : Keeps r r' := by
  induction fuel generalizing r n with
  | zero =>
    cases hok
    exact .refl _
  | succ fuel ih =>
    unfold splitOverlapsFrom at hok
    split at hok
    · cases hok
      exact .refl _
    · obtain ⟨r₁, hok₁, hrest⟩ := Ssa.bind_eq_ok.1 hok
      exact .trans (.inl (tree_splitOverlap hok₁)) (ih hrest)

/-- A patch block drops the tree. -/
theorem tree_patchLikely (hok : r.patchLikely s = .ok (r', t)) : r'.tree = none := by
  obtain ⟨a, ha, hrest⟩ := Ssa.bind_eq_ok.1 hok
  split at hrest
  · rename_i index addr insn taken notTaken delay htransfer hlast
    rw [patchLikely_eq (block?_of_block ha) ⟨htransfer, rfl, hlast⟩] at hok
    obtain ⟨r₁, -, hok⟩ := Ssa.bind_eq_ok.1 hok
    obtain ⟨r₂, hadd, hok⟩ := Ssa.bind_eq_ok.1 hok
    cases hok
    exact tree_addEdge hadd
  · cases hrest

/-- Without a likely branch, no patch block drops the tree. -/
theorem keeps_patchAll {n : Nat} (hok : r.patchAll = .ok (r', n)) : Keeps r r' := by
  obtain ⟨r₁, hfold, hrest⟩ := Ssa.bind_eq_ok.1 hok
  cases hrest
  refine Keeps.foldlM (fun r r' s hs => ?_) hfold
  obtain ⟨⟨r₂, p⟩, hpatch, hs⟩ := Ssa.bind_eq_ok.1 hs
  cases hs
  exact .inl (tree_patchLikely hpatch)

/-- Pruning drops the tree, or it takes away blocks without edges only. -/
theorem keeps_prune {n : Nat} (hok : r.prune = .ok (r', n)) : Keeps r r' := by
  obtain ⟨r₁, hfold, hrest⟩ := Ssa.bind_eq_ok.1 hok
  cases hrest
  refine Keeps.foldlM (fun r r' s hs => ?_) hfold
  obtain ⟨⟨r₂, gone⟩, hremove, hs⟩ := Ssa.bind_eq_ok.1 hs
  cases hs
  exact keeps_removeBlock hremove

/-- A change drops the tree, or it does no more than remove blocks without edges. -/
theorem Change.keeps {c : Change} (hok : c.apply r = .ok r') : Keeps r r' := by
  cases c with
  | insert t targets =>
    cases hok
    exact .inl (tree_insertBlock _ _)
  | remove s hs =>
    obtain ⟨b, hok⟩ := exists_of_map_fst hok
    exact keeps_removeBlock hok
  | addEdge s t => exact .inl (tree_addEdge hok)
  | removeEdge s t => exact .inl (tree_removeEdge hok)
  | wire s => exact keeps_wireBlock hok
  | splitAt s addr =>
    obtain ⟨t, hok⟩ := exists_of_map_fst hok
    exact .inl (tree_splitAt hok)
  | splitOverlaps =>
    obtain ⟨n, hok⟩ := exists_of_map_fst hok
    exact keeps_splitOverlapsFrom _ hok
  | patchLikely s =>
    obtain ⟨p, hok⟩ := exists_of_map_fst hok
    exact .inl (tree_patchLikely hok)
  | patchAll =>
    obtain ⟨n, hok⟩ := exists_of_map_fst hok
    exact keeps_patchAll hok
  | prune =>
    obtain ⟨n, hok⟩ := exists_of_map_fst hok
    exact keeps_prune hok

/-- New regions and those of traces have no tree. -/
theorem tree_ofTraces {traces : List Trace} {indirect : UInt32 → List UInt32}
    (hok : ofTraces traces indirect = .ok r) : r.tree = none := by
  have hfill : ∀ (l : List Trace) (r : Region), r.tree = none →
      (l.foldl (addTrace indirect) r).tree = none := by
    intro l
    induction l with
    | nil => exact fun r h => h
    | cons t l ih =>
      intro r h
      refine ih _ ?_
      unfold addTrace
      split
      · exact h
      · exact tree_insertBlock _ _
  unfold ofTraces at hok
  simp only at hok
  split at hok
  · exact tree_addEdge hok
  · cases hok
    exact hfill traces _ rfl

/-! ## Sequences of actions -/

/-- What can be done with a region: a change, the insertion of a block without edges, and the
computation of its dominators. -/
inductive Action where
  | change (c : Change)
  | insert (b : Block) (h : b.Isolated)
  | computeDominators

namespace Action

/-- The region after the action. -/
def apply (r : Region) : Action → Except GraphError Region
  | change c => c.apply r
  | insert b _ => .ok (r.insertBlock b).1
  | computeDominators => .ok r.computeDominators

/-- The region after all actions, in order, unless one of them is not allowed. -/
def run (actions : List Action) (r : Region) : Except GraphError Region := actions.foldlM apply r

end Action

/-- Computing dominators breaks no link. -/
theorem linked_computeDominators (h : Linked r) : Linked r.computeDominators := by
  have hgraph := r.sameGraph_computeDominators
  refine h.of_sameBlocks ⟨fun s => ?_, rfl, rfl, rfl, by simp [computeDominators]⟩
    (fun s t => ?_) (fun s t hst => ?_) (fun s => ?_) (fun s => ?_)
  · rw [bare?, block?_computeDominators, Option.map_map]
    rfl
  · rw [hgraph.succs, hgraph.preds]
    exact h.succ_iff s t
  · rw [hgraph.succs] at hst
    exact h.live s t hst
  · rw [hgraph.succs]
    exact h.sorted s
  · rw [hgraph.preds]
    exact h.sorted_preds s

/-- The tree of a region is the one of a linked region of which only blocks without edges are gone. -/
structure Cached (r : Region) : Prop where
  linked : Linked r
  tree : ∀ t, r.tree = some t → ∃ r₀, Linked r₀ ∧ Thinned r₀ r ∧ t = r₀.flowGraph.dominatorTree

/-- One action keeps the tree current or drops it. -/
theorem Cached.apply {a : Action} (h : Cached r) (hok : a.apply r = .ok r') : Cached r' := by
  cases a with
  | change c =>
    refine ⟨c.linked h.linked hok, fun t ht => ?_⟩
    rcases Change.keeps hok with hnone | ⟨htree, hthin⟩
    · rw [hnone] at ht
      cases ht
    · obtain ⟨r₀, hlinked, hthin₀, heq⟩ := h.tree t (htree ▸ ht)
      exact ⟨r₀, hlinked, hthin₀.trans hthin, heq⟩
  | insert b hb =>
    cases hok
    refine ⟨h.linked.insertBlock hb, fun t ht => ?_⟩
    rw [tree_insertBlock] at ht
    cases ht
  | computeDominators =>
    cases hok
    have hlinked := linked_computeDominators h.linked
    refine ⟨hlinked, fun t ht => ⟨_, hlinked, .refl _, ?_⟩⟩
    rw [r.sameGraph_computeDominators.flowGraph]
    exact (Option.some.inj ht).symm

/-- Any sequence of actions keeps the tree current or drops it. -/
theorem Cached.run {actions : List Action} (h : Cached r) (hok : Action.run actions r = .ok r') :
    Cached r' := by
  induction actions generalizing r with
  | nil =>
    cases hok
    exact h
  | cons a actions ih =>
    rw [Action.run, List.foldlM_cons] at hok
    obtain ⟨r₁, hok₁, hrest⟩ := Ssa.bind_eq_ok.1 hok
    exact ih (h.apply hok₁) hrest

/-! ## What the tree is worth -/

/-- Dominance only depends on where edges lead. -/
theorem path_congr {g g' : Graph} (h : g.succs = g'.succs) {a b : Node} {l : List Node}
    (hpath : Graph.Path g a b l) : Graph.Path g' a b l := by
  induction hpath with
  | refl => exact .refl
  | step _ edge ih => exact ih.step (h ▸ edge)

/-- At blocks that control can reach, removing blocks without edges makes no difference. -/
theorem Thinned.idom_eq (h : Thinned r₀ r) (hr₀ : Linked r₀) (hr : Linked r)
    (hs : r.flowGraph.Reachable s) :
    r₀.flowGraph.dominatorTree.idom s = r.flowGraph.dominatorTree.idom s := by
  have hsuccs : r.flowGraph.succs = r₀.flowGraph.succs := funext h.succs
  have hpath : ∀ {a b : Node} {l : List Node},
      Graph.Path r.flowGraph a b l ↔ Graph.Path r₀.flowGraph a b l :=
    ⟨path_congr hsuccs, path_congr hsuccs.symm⟩
  have hreach : r₀.flowGraph.Reachable s := by
    obtain ⟨l, hl⟩ := hs
    exact ⟨l, hpath.1 hl⟩
  have hdominates : ∀ {a b : Node},
      r.flowGraph.Dominates a b ↔ r₀.flowGraph.Dominates a b := fun {a b} =>
    forall_congr' fun l => imp_congr_left hpath
  -- A computed tree is exact as long as the entry block is there.
  cases hentry : r.block? entrySlot with
  | some e =>
    have hexact := DominatorTree.exact_dominatorTree (hr.wellFormed hentry)
    have hexact₀ := DominatorTree.exact_dominatorTree (hr₀.wellFormed (h.block? hentry))
    refine Option.ext fun d => ?_
    rw [hexact.idom_some s d hs, hexact₀.idom_some s d hreach]
    simp only [Graph.StrictlyDominates, hdominates]
  | none =>
    -- Without an entry block control reaches nothing else, and the entry has no dominator.
    have hnil : r.flowGraph.succs entrySlot = [] := succs_of_none hentry
    have hstays : ∀ {b : Node} {l : List Node}, Graph.Path r.flowGraph entrySlot b l →
        b = entrySlot := fun hpath => by
      induction hpath with
      | refl => rfl
      | step _ edge ih =>
        rw [ih, hnil] at edge
        cases edge
    obtain rfl : s = entrySlot := by
      obtain ⟨l, hl⟩ := hs
      exact hstays hl
    have hnone : ∀ {r : Region}, r.block? entrySlot = none →
        r.flowGraph.dominatorTree.idom entrySlot = none := fun hdead =>
      Graph.idom_eq_none fun hmem => by
        obtain ⟨b, hb⟩ := mem_nodes.1 hmem
        rw [hdead] at hb
        cases hb
    rw [hnone hentry]
    cases hentry₀ : r₀.block? entrySlot with
    | some e =>
      exact ((DominatorTree.exact_dominatorTree (hr₀.wellFormed hentry₀)).idom_none _ hreach).2 rfl
    | none => exact hnone hentry₀

/-- A result that is there is that of a success. -/
private theorem exists_of_toOption {x : Except GraphError Region} (h : x.toOption = some r) :
    x = .ok r := by
  cases x with
  | error e => cases h
  | ok r' => rw [Option.some.inj h]

/-- The blocks that a computed tree lists. -/
theorem mem_listed : s ∈ r.flowGraph.dominatorTree.idoms.map Prod.fst ↔ ∃ b, r.block? s = some b := by
  rw [Graph.dominatorTree, List.map_map, ← mem_nodes]
  simp

/-- No block without edges is removed along the way. -/
def Action.NoStray (actions : List Action) (start : Region) : Prop :=
  ∀ before a after r₁ r₂, actions = before ++ a :: after → run before start = .ok r₁ →
    a.apply r₁ = .ok r₂ → ∀ s b, r₁.block? s = some b → r₂.block? s = none → ¬ b.Isolated

/-- If no block without edges is removed, a tree that is up to date stays so. -/
theorem tree_of_noStray {actions : List Action} {start : Region}
    (hstart : ∀ t, start.tree = some t → t = start.flowGraph.dominatorTree)
    (hstray : Action.NoStray actions start) (hok : Action.run actions start = .ok r) :
    ∀ t, r.tree = some t → t = r.flowGraph.dominatorTree := by
  induction actions generalizing start with
  | nil =>
    cases hok
    exact hstart
  | cons a actions ih =>
    rw [Action.run, List.foldlM_cons] at hok
    obtain ⟨r₁, hok₁, hrest⟩ := Ssa.bind_eq_ok.1 hok
    -- The tree is up to date after the first action, and the rest removes no such block either.
    refine ih ?_ (fun before a' after r₂ r₃ heq hrun => ?_) hrest
    · intro t ht
      cases a with
      | change c =>
        rcases Change.keeps hok₁ with hnone | ⟨htree, hthin⟩
        · rw [hnone] at ht
          cases ht
        · rw [hthin.flowGraph fun s b hb => ?_]
          · exact hstart t (htree ▸ ht)
          · rcases hthin s with hsame | ⟨hgone, b', hb', hisolated⟩
            · exact ⟨b, hsame.trans hb⟩
            · exact absurd hisolated (hstray [] _ actions start r₁ rfl rfl hok₁ s b' hb' hgone)
      | insert b hb =>
        cases hok₁
        rw [tree_insertBlock] at ht
        cases ht
      | computeDominators =>
        cases hok₁
        rw [start.sameGraph_computeDominators.flowGraph]
        exact (Option.some.inj ht).symm
    · refine hstray (a :: before) a' after r₂ r₃ (by rw [heq]; rfl) ?_
      rw [Action.run, List.foldlM_cons, hok₁]
      exact hrun

/-- After any sequence of actions, on a new region or on the blocks of any traces: a tree that the
region keeps is the one that would be computed anew if and only if all blocks it lists are still there,
it lists all blocks that are there, and for blocks that control can reach it has the immediate
dominators that would be computed anew. It is the one that would be computed anew whenever no block
without edges was removed. -/
theorem kept_tree (start r : Region) (actions : List Action)
    (hstart : (∃ entryAddr, start = new entryAddr) ∨
      ∃ traces indirect, ofTraces traces indirect = .ok start)
    (hrun : Action.run actions start = .ok r) (t : DominatorTree) (htree : r.tree = some t) :
    (t = r.flowGraph.dominatorTree ↔ ∀ s ∈ t.idoms.map Prod.fst, ∃ b, r.block? s = some b) ∧
      (∀ s b, r.block? s = some b → s ∈ t.idoms.map Prod.fst) ∧
      (∀ s, r.flowGraph.Reachable s → t.idom s = r.flowGraph.dominatorTree.idom s) ∧
      (Action.NoStray actions start → t = r.flowGraph.dominatorTree) := by
  -- There is no tree at the start, so all that is kept comes from the actions.
  have hnone : start.tree = none := by
    rcases hstart with ⟨entryAddr, rfl⟩ | ⟨traces, indirect, hok⟩
    · rfl
    · exact tree_ofTraces hok
  have hlinked : Linked start := by
    rcases hstart with ⟨entryAddr, rfl⟩ | ⟨traces, indirect, hok⟩
    · exact linked_new entryAddr
    · exact linked_ofTraces hok
  have hcached : Cached start := ⟨hlinked, fun t ht => by rw [hnone] at ht; cases ht⟩
  obtain ⟨hr, hkept⟩ := hcached.run hrun
  obtain ⟨r₀, hr₀, hthin, rfl⟩ := hkept t htree
  refine ⟨⟨fun heq s hs => ?_, fun hlive => ?_⟩, fun s b hb => mem_listed.2 ⟨b, hthin.block? hb⟩,
    fun s hs => hthin.idom_eq hr₀ hr hs, fun hstray => ?_⟩
  · rw [heq] at hs
    exact mem_listed.1 hs
  · rw [hthin.flowGraph fun s b hb => hlive s (mem_listed.2 ⟨b, hb⟩)]
  · exact tree_of_noStray (fun t ht => by rw [hnone] at ht; cases ht) hstray hrun _ htree

/-- The tree of a loop that was cut, computed before blocks that cannot be reached are looked for, is
still the one that would be computed anew. -/
theorem kept_tree_loop : ∃ start r t, ofTraces loopTraces (fun _ => []) = .ok start ∧
    Action.run [.change (.wire 1), .change (.wire 2), .change .splitOverlaps, .computeDominators,
      .change .prune] start = .ok r ∧
    r.tree = some t ∧ t = r.flowGraph.dominatorTree ∧ 2 ≤ t.idoms.length := by
  have hruns : ((ofTraces loopTraces (fun _ => []) >>= Action.run [.change (.wire 1),
      .change (.wire 2), .change .splitOverlaps, .computeDominators, .change .prune]).toOption.any
      fun r => r.tree.any fun t => (t.idoms.all fun p => (r.block? p.1).isSome) &&
        decide (2 ≤ t.idoms.length)) = true := by decide +kernel
  obtain ⟨r, hr, hfacts⟩ := (Option.any_eq_true _ _).1 hruns
  obtain ⟨t, ht, hfacts⟩ := (Option.any_eq_true _ _).1 hfacts
  simp only [Bool.and_eq_true, List.all_eq_true, decide_eq_true_eq, Option.isSome_iff_exists] at hfacts
  obtain ⟨start, hstart, hrun⟩ := Ssa.bind_eq_ok.1 (exists_of_toOption hr)
  refine ⟨start, r, t, hstart, hrun, ht, ?_, hfacts.2⟩
  refine (kept_tree start r _ (.inr ⟨_, _, hstart⟩) hrun t ht).1.2 fun s hs => ?_
  obtain ⟨p, hp, rfl⟩ := List.mem_map.1 hs
  exact hfacts.1 p hp

/-- Two traces without an edge between them. -/
def apartTraces : List Trace := [⟨0x100, [0x03e00008, 0]⟩, ⟨0x200, [0x03e00008, 0]⟩]

/-- The block of the second trace has no edges. After it is removed the region still keeps the tree
from before, which lists it and is not the one that would be computed anew. -/
theorem kept_tree_lists_removed : ∃ start r t, ofTraces apartTraces (fun _ => []) = .ok start ∧
    Action.run [.computeDominators, .change (.remove 2 (by decide))] start = .ok r ∧
    r.tree = some t ∧ 2 ∈ t.idoms.map Prod.fst ∧ r.block? 2 = none ∧
    t ≠ r.flowGraph.dominatorTree := by
  have hruns : ((ofTraces apartTraces (fun _ => []) >>= Action.run [.computeDominators,
      .change (.remove 2 (by decide))]).toOption.any fun r => r.tree.any fun t =>
        decide (2 ∈ t.idoms.map Prod.fst) && (r.block? 2).isNone &&
          decide (t ≠ r.flowGraph.dominatorTree)) = true := by decide +kernel
  obtain ⟨r, hr, hfacts⟩ := (Option.any_eq_true _ _).1 hruns
  obtain ⟨t, ht, hfacts⟩ := (Option.any_eq_true _ _).1 hfacts
  simp only [Bool.and_eq_true, decide_eq_true_eq, Option.isNone_iff_eq_none] at hfacts
  obtain ⟨start, hstart, hrun⟩ := Ssa.bind_eq_ok.1 (exists_of_toOption hr)
  exact ⟨start, r, t, hstart, hrun, ht, hfacts.1.1, hfacts.1.2, hfacts.2⟩

end HotRegion.Region
