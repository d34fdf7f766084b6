import HotRegion.Flow.Graph

/-!
# Paths and dominance

The declarative side of flow graphs: paths, reachability and dominance by paths. A path is
kept as the list of the nodes it visits, the last one first, so that it grows at the head and
inductions follow the run of control.

## Key results

- `Path.trans` / `Path.split`: paths compose and can be cut at any node they visit
- `Dominates.trans` / `Dominates.antisymm`: dominance is an order on reachable nodes
- `Dominates.total`: the dominators of a reachable node form a chain
- `Dominates.of_succ`: a strict dominator dominates every predecessor
-/

namespace HotRegion.Flow.Graph

variable {g : Graph} {a b c d x y : Node} {l m : List Node}

/-- A path from `a`, with the visited nodes listed from the last one back to `a`. -/
inductive Path (g : Graph) (a : Node) : Node → List Node → Prop where
  | refl : Path g a a [a]
  | step {b c : Node} {l : List Node} (h : Path g a b l) (edge : c ∈ g.succs b) :
      Path g a c (c :: l)

/-- Control can reach `b` from the entry. -/
def Reachable (g : Graph) (b : Node) : Prop := ∃ l, Path g g.entry b l

/-- Every path from the entry to `b` visits `a`. -/
def Dominates (g : Graph) (a b : Node) : Prop := ∀ l, Path g g.entry b l → a ∈ l

/-- `a` dominates `b` and is another node. -/
def StrictlyDominates (g : Graph) (a b : Node) : Prop := g.Dominates a b ∧ a ≠ b

/-- The two views of the edges agree, and edges only join nodes of the graph. -/
structure WellFormed (g : Graph) : Prop where
  entry_mem : g.entry ∈ g.nodes
  sorted : Ascending.Sorted id g.nodes
  mem_preds : ∀ a b, a ∈ g.preds b ↔ b ∈ g.succs a
  source_mem : ∀ a b, b ∈ g.succs a → a ∈ g.nodes
  target_mem : ∀ a b, b ∈ g.succs a → b ∈ g.nodes

/-! ## Paths -/

/-- A path starts with the node it leads to. -/
theorem Path.head_mem (h : Path g a b l) : b ∈ l := by
  cases h <;> simp

/-- A path visits the node it comes from. -/
theorem Path.start_mem (h : Path g a b l) : a ∈ l := by
  induction h with
  | refl => simp
  | step _ _ ih => exact List.mem_cons_of_mem _ ih

/-- One path after the other visits the nodes of both. -/
theorem Path.trans (h : Path g a b l) (h' : Path g b c m) :
    ∃ k, Path g a c k ∧ ∀ x, x ∈ k ↔ x ∈ l ∨ x ∈ m := by
  induction h' with
  | refl =>
    refine ⟨l, h, fun x => ⟨Or.inl, ?_⟩⟩
    rintro (hx | hx)
    · exact hx
    · rw [List.mem_singleton.1 hx]
      exact h.head_mem
  | step _ edge ih =>
    obtain ⟨k, hk, hmem⟩ := ih
    refine ⟨_, hk.step edge, fun x => ?_⟩
    simp only [List.mem_cons, hmem]
    exact or_left_comm

/-- A path can be cut at the last visit of a node: the rest does not come back to it. -/
theorem Path.split (h : Path g a b l) (hx : x ∈ l) :
    ∃ k m, Path g a x k ∧ Path g x b (m ++ [x]) ∧ x ∉ m ∧ (∀ y ∈ k, y ∈ l) ∧
      ∀ y ∈ m, y ∈ l := by
  induction h with
  | refl =>
    rw [List.mem_singleton] at hx
    subst hx
    exact ⟨[x], [], .refl, .refl, by simp, by simp, by simp⟩
  | @step b c l h edge ih =>
    by_cases hxc : x = c
    · subst hxc
      exact ⟨x :: l, [], h.step edge, .refl, by simp, fun y hy => hy, by simp⟩
    · have hxl : x ∈ l := (List.mem_cons.1 hx).resolve_left hxc
      obtain ⟨k, m, hk, hm, hxm, hkl, hml⟩ := ih hxl
      refine ⟨k, c :: m, hk, hm.step edge, ?_, fun y hy => List.mem_cons_of_mem _ (hkl y hy), ?_⟩
      · simp [hxc, hxm]
      · intro y hy
        rcases List.mem_cons.1 hy with rfl | hy
        · exact List.mem_cons_self
        · exact List.mem_cons_of_mem _ (hml y hy)

/-- A path can be cut at the first visit of a node. -/
theorem Path.first (h : Path g a b l) (hx : x ∈ l) :
    ∃ k, Path g a x (x :: k) ∧ x ∉ k ∧ ∀ y ∈ k, y ∈ l := by
  induction h with
  | refl =>
    rw [List.mem_singleton] at hx
    subst hx
    exact ⟨[], .refl, by simp, by simp⟩
  | @step b c l h edge ih =>
    by_cases hxl : x ∈ l
    · obtain ⟨k, hk, hxk, hkl⟩ := ih hxl
      exact ⟨k, hk, hxk, fun y hy => List.mem_cons_of_mem _ (hkl y hy)⟩
    · have hxc : x = c := (List.mem_cons.1 hx).resolve_right hxl
      subst hxc
      exact ⟨l, h.step edge, hxl, fun y hy => List.mem_cons_of_mem _ hy⟩

/-- Of two nodes on a path one is visited last: the rest of the path from it avoids the other. -/
theorem Path.split_last (h : Path g a d l) (hb : b ∈ l) (hc : c ∈ l) (hbc : b ≠ c) :
    (∃ m, Path g b d m ∧ c ∉ m) ∨ ∃ m, Path g c d m ∧ b ∉ m := by
  induction h with
  | refl =>
    rw [List.mem_singleton] at hb hc
    exact absurd (hb.trans hc.symm) hbc
  | @step e f l h edge ih =>
    by_cases hbf : b = f
    · subst hbf
      exact Or.inl ⟨[b], .refl, by simpa using Ne.symm hbc⟩
    · by_cases hcf : c = f
      · subst hcf
        exact Or.inr ⟨[c], .refl, by simpa using hbc⟩
      · have hbl : b ∈ l := (List.mem_cons.1 hb).resolve_left hbf
        have hcl : c ∈ l := (List.mem_cons.1 hc).resolve_left hcf
        rcases ih hbl hcl with ⟨m, hm, hcm⟩ | ⟨m, hm, hbm⟩
        · exact Or.inl ⟨_, hm.step edge, by simp [hcf, hcm]⟩
        · exact Or.inr ⟨_, hm.step edge, by simp [hbf, hbm]⟩

/-- A path from a node of the graph stays in the graph. -/
theorem Path.mem_nodes (hg : g.WellFormed) (h : Path g a b l) (ha : a ∈ g.nodes) :
    ∀ y ∈ l, y ∈ g.nodes := by
  induction h with
  | refl => simpa using ha
  | step _ edge ih =>
    intro y hy
    rcases List.mem_cons.1 hy with rfl | hy
    · exact hg.target_mem _ _ edge
    · exact ih y hy

/-! ## Reachable nodes -/

/-- The entry can be reached. -/
theorem Reachable.entry (g : Graph) : g.Reachable g.entry := ⟨_, .refl⟩

/-- What follows a node that can be reached can be reached. -/
theorem Reachable.succ (h : g.Reachable a) (edge : b ∈ g.succs a) : g.Reachable b := by
  obtain ⟨l, hl⟩ := h
  exact ⟨_, hl.step edge⟩

/-- What can be reached is a node. -/
theorem Reachable.mem_nodes (hg : g.WellFormed) (h : g.Reachable a) : a ∈ g.nodes := by
  obtain ⟨l, hl⟩ := h
  exact hl.mem_nodes hg hg.entry_mem a hl.head_mem

/-- A node on a path to a reachable node is reachable. -/
theorem Path.reachable (h : Path g g.entry b l) (hx : x ∈ l) : g.Reachable x := by
  obtain ⟨k, _, hk, _⟩ := h.split hx
  exact ⟨k, hk⟩

/-! ## Dominance -/

/-- A node dominates itself. -/
theorem Dominates.refl (g : Graph) (a : Node) : g.Dominates a a := fun _ h => h.head_mem

/-- The entry dominates every node. -/
theorem dominates_entry (g : Graph) (a : Node) : g.Dominates g.entry a := fun _ h => h.start_mem

/-- A dominator of a reachable node is reachable. -/
theorem Dominates.reachable (h : g.Dominates a b) (hb : g.Reachable b) : g.Reachable a := by
  obtain ⟨l, hl⟩ := hb
  exact hl.reachable (h l hl)

/-- Dominance is transitive. -/
theorem Dominates.trans (hab : g.Dominates a b) (hbc : g.Dominates b c) : g.Dominates a c := by
  intro l hl
  obtain ⟨k, _, hk, _, _, hkl, _⟩ := hl.split (hbc l hl)
  exact hkl _ (hab k hk)

/-- A strict dominator dominates every predecessor. -/
theorem Dominates.of_succ (h : g.Dominates a b) (hne : a ≠ b) (edge : b ∈ g.succs c) :
    g.Dominates a c := fun _ hl =>
  (List.mem_cons.1 (h _ (hl.step edge))).resolve_left hne

/-- A node other than the entry is dominated by what dominates all its predecessors. -/
theorem Dominates.of_preds (hne : b ≠ g.entry) (h : ∀ c, b ∈ g.succs c → g.Dominates a c) :
    g.Dominates a b := by
  intro l hl
  cases hl with
  | refl => exact absurd rfl hne
  | step hl edge => exact List.mem_cons_of_mem _ (h _ edge _ hl)

/-- Only the entry dominates the entry. -/
theorem Dominates.eq_entry (h : g.Dominates a g.entry) : a = g.entry := by
  simpa using h _ .refl

/-- If `a` does not dominate `b`, some path to `b` avoids `a`. -/
theorem exists_path_of_not_dominates (h : ¬ g.Dominates a b) :
    ∃ l, Path g g.entry b l ∧ a ∉ l := by
  simpa [Dominates] using h

/-- Of two nodes that dominate a reachable node, one dominates the other. -/
theorem Dominates.total (ha : g.Dominates a c) (hb : g.Dominates b c) (hc : g.Reachable c) :
    g.Dominates a b ∨ g.Dominates b a := by
  refine Classical.byContradiction fun hnot => ?_
  obtain ⟨hnab, hnba⟩ := not_or.1 hnot
  obtain ⟨k, hk, hak⟩ := exists_path_of_not_dominates hnab
  obtain ⟨m, hm, hbm⟩ := exists_path_of_not_dominates hnba
  obtain ⟨l, hl⟩ := hc
  have hne : a ≠ b := fun h => hnab (h ▸ Dominates.refl g a)
  -- The part of the path after the later of the two, behind a path that avoids the earlier one.
  rcases hl.split_last (ha l hl) (hb l hl) hne with ⟨n, hn, hbn⟩ | ⟨n, hn, han⟩
  · obtain ⟨p, hp, hmem⟩ := hm.trans hn
    exact ((hmem b).1 (hb p hp)).elim hbm hbn
  · obtain ⟨p, hp, hmem⟩ := hk.trans hn
    exact ((hmem a).1 (ha p hp)).elim hak han

/-- Two nodes that dominate each other are the same. -/
theorem Dominates.antisymm (hab : g.Dominates a b) (hba : g.Dominates b a) (hb : g.Reachable b) :
    a = b := by
  refine Classical.byContradiction fun hne => ?_
  obtain ⟨l, hl⟩ := hb
  -- The path up to the first visit of `a` visits `b` before, and the path up to there avoids `a`.
  obtain ⟨k, hk, hak, _⟩ := hl.first (hab l hl)
  have hbk : b ∈ k := (List.mem_cons.1 (hba _ hk)).resolve_left (Ne.symm hne)
  cases hk with
  | refl => simp at hbk
  | step hk _ =>
    obtain ⟨m, _, hm, _, _, hmk, _⟩ := hk.split hbk
    exact hak (hmk _ (hab m hm))

end HotRegion.Flow.Graph
