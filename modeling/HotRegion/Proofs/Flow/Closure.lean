import HotRegion.Flow.Frontier
import HotRegion.Proofs.Flow.DominatorTree

/-!
# Closures

The search for reachable nodes goes in rounds that add nodes until nothing new comes up. `settle` is
that loop for any function; on ascending lists inside a finite set it ends at a fixed point once it
may take more rounds than the set has nodes left. The search for an iterated frontier keeps a list of
the nodes still to be worked on; it ends since a node gets there only when it is found.

## Key results

- `mem_reachable_iff`: the search finds exactly the reachable nodes
- `mem_iteratedFrontier_of_mem`: the iterated frontier holds the frontiers of its definitions and
  of its own members
- `iteratedFrontier_induction`: and nothing that does not come from there
-/

namespace HotRegion.Flow

open Ascending (Sorted)

variable {l m : List Node} {x y : Node}

/-- The members of a union of ascending lists of nodes. -/
@[simp] theorem mem_union (x : Node) (l m : List Node) : x ∈ union l m ↔ x ∈ l ∨ x ∈ m :=
  Ascending.mem_union (fun _ _ h => h) x l m

/-- A union over a list has what is in one of its parts. -/
private theorem mem_foldl_union (f : Node → List Node) (xs acc : List Node) (y : Node) :
    y ∈ xs.foldl (fun acc x => union acc (f x)) acc ↔ y ∈ acc ∨ ∃ x ∈ xs, y ∈ f x := by
  induction xs generalizing acc with
  | nil => simp
  | cons x xs ih =>
    rw [List.foldl_cons, ih, mem_union]
    simp only [List.mem_cons, exists_eq_or_imp]
    exact or_assoc

/-- A union over a list is in order. -/
private theorem sorted_foldl_union (f : Node → List Node) (xs acc : List Node)
    (h : Sorted id acc) : Sorted id (xs.foldl (fun acc x => union acc (f x)) acc) := by
  induction xs generalizing acc with
  | nil => exact h
  | cons x xs ih => exact ih _ (h.union _)

/-- Applies `f` until nothing changes, at most `fuel` times. -/
def settle (f : List Node → List Node) : Nat → List Node → List Node
  | 0, l => l
  | fuel + 1, l => if f l = l then l else settle f fuel (f l)

/-- Growing ascending lists inside a finite set settle at a fixed point. -/
theorem settle_fixed {f : List Node → List Node} {u : List Node}
    (hsorted : ∀ l, Sorted id l → Sorted id (f l))
    (hgrow : ∀ l, ∀ x ∈ l, x ∈ f l)
    (hinside : ∀ l, (∀ x ∈ l, x ∈ u) → ∀ x ∈ f l, x ∈ u)
    (hu : Sorted id u) (fuel : Nat) (hl : Sorted id l)
    (hsub : ∀ x ∈ l, x ∈ u) (hfuel : u.length < fuel + l.length) :
    f (settle f fuel l) = settle f fuel l ∧ ∀ x ∈ l, x ∈ settle f fuel l := by
  induction fuel generalizing l with
  | zero =>
    have := (hl.sublist_of_subset hu hsub).length_le
    omega
  | succ fuel ih =>
    unfold settle
    split
    · rename_i heq
      exact ⟨heq, fun _ hx => hx⟩
    · rename_i hne
      -- While a round adds something the list grows, and `u` bounds how long it can get.
      have hs := hsorted l hl
      have hsl := hl.sublist_of_subset hs (hgrow l)
      have hlt : l.length < (f l).length := by
        refine Nat.lt_of_le_of_ne hsl.length_le fun heq => hne ?_
        exact (hsl.eq_of_length heq).symm
      obtain ⟨hfix, hmem⟩ := ih hs (hinside l hsub) (by omega)
      exact ⟨hfix, fun x hx => hmem x (hgrow l x hx)⟩

/-- What every round keeps holds of the members in the end. -/
theorem settle_induction {f : List Node → List Node} {P : Node → Prop}
    (hf : ∀ l, (∀ x ∈ l, P x) → ∀ x ∈ f l, P x) (fuel : Nat) (hl : ∀ x ∈ l, P x) :
    ∀ x ∈ settle f fuel l, P x := by
  induction fuel generalizing l with
  | zero => exact hl
  | succ fuel ih =>
    unfold settle
    split
    · exact hl
    · exact ih (hf l hl)

/-! ## Reachable nodes -/

namespace Graph

variable {g : Graph} {a b : Node}

/-- Closing a list is repeating one step until nothing changes. -/
private theorem close_eq_settle (g : Graph) (fuel : Nat) (l : List Node) :
    g.close fuel l = settle (fun l => l.foldl (fun acc x => union acc (g.succs x)) l) fuel l := by
  induction fuel generalizing l with
  | zero => rfl
  | succ fuel ih => simp only [close, settle, ih]

/-- The search finds exactly the nodes that can be reached from the entry. -/
theorem mem_reachable_iff (hg : g.WellFormed) : b ∈ g.reachable ↔ g.Reachable b := by
  unfold reachable
  rw [close_eq_settle]
  constructor
  -- No round leaves what is reachable, and what the last one returns is closed under successors.
  · refine settle_induction (fun l hl x hx => ?_) _ (fun x hx => ?_) b
    · rcases (mem_foldl_union _ _ _ _).1 hx with h | ⟨y, hy, hxy⟩
      · exact hl x h
      · exact (hl y hy).succ hxy
    · rw [List.mem_singleton.1 hx]
      exact Reachable.entry g
  · obtain ⟨hfix, hmem⟩ := settle_fixed (u := g.nodes) (l := [g.entry])
      (f := fun l => l.foldl (fun acc x => union acc (g.succs x)) l)
      (fun l hl => sorted_foldl_union _ _ _ hl)
      (fun l x hx => (mem_foldl_union _ _ _ _).2 (Or.inl hx))
      (fun l hl x hx => by
        rcases (mem_foldl_union _ _ _ _).1 hx with h | ⟨y, _, hxy⟩
        · exact hl x h
        · exact hg.target_mem y x hxy)
      hg.sorted g.nodes.length (by simp [Sorted])
      (by simpa using hg.entry_mem) (by simp)
    rintro ⟨l, hl⟩
    induction hl with
    | refl => exact hmem _ (by simp)
    | step _ edge ih =>
      rw [← hfix]
      exact (mem_foldl_union _ _ _ _).2 (Or.inr ⟨_, ih, edge⟩)

end Graph

/-! ## Iterated frontiers -/

variable {frontiers : List (Node × List Node)} {defs : List Node}

namespace FrontierSearch

variable {s s' s'' : FrontierSearch}

/-- What finding the nodes of `l` changes. -/
private structure Finds (l : List Node) (s s' : FrontierSearch) : Prop where
  mem_found : ∀ z, z ∈ s'.found ↔ z ∈ s.found ∨ z ∈ l
  work : ∀ z ∈ s.work, z ∈ s'.work
  mem_work : ∀ z ∈ s'.work, z ∈ s.work ∨ z ∈ l
  queued : ∀ z ∈ s.queued, z ∈ s'.queued
  mem_queued : ∀ z ∈ s'.queued, z ∈ s.queued ∨ z ∈ s'.work
  found_queued : (∀ z ∈ s.found, z ∈ s.queued) → ∀ z ∈ s'.found, z ∈ s'.queued
  sorted : Sorted id s.found → Sorted id s'.found
  /-- No more nodes are to be worked on than are found. -/
  length_le : Sorted id s.found → s'.work.length + s.found.length ≤ s.work.length + s'.found.length

/-- Finding a node that was not found before makes one more of them. -/
private theorem length_insert (hl : Sorted id l) (hx : x ∉ l) : l.length < (insert x l).length := by
  have hsub := hl.sublist_of_subset (hl.insert x) fun y hy => (mem_insert x y l).2 (.inr hy)
  apply Nat.lt_of_le_of_ne hsub.length_le
  intro heq
  apply hx
  rw [hsub.eq_of_length heq]
  exact (mem_insert x x l).2 (.inl rfl)

/-- A search finds a node once. -/
private theorem finds_find (s : FrontierSearch) (x : Node) : Finds [x] s (s.find x) := by
  unfold find
  split
  · rename_i hfound
    have hx := List.contains_iff_mem.1 hfound
    refine ⟨fun z => ⟨.inl, ?_⟩, fun _ h => h, fun _ h => .inl h, fun _ h => h, fun _ h => .inl h,
      id, id, fun _ => Nat.le_refl _⟩
    rintro (h | h)
    · exact h
    · exact List.mem_singleton.1 h ▸ hx
  · rename_i hfound
    have hx : x ∉ s.found := fun h => hfound (List.contains_iff_mem.2 h)
    -- What is found already adds nothing.
    have hmem : ∀ z, z ∈ insert x s.found ↔ z ∈ s.found ∨ z ∈ [x] := fun z => by
      rw [mem_insert, List.mem_singleton, or_comm]
    split
    · rename_i hqueued
      have hxq := List.contains_iff_mem.1 hqueued
      refine ⟨hmem, fun _ h => h, fun _ h => .inl h, fun _ h => h, fun _ h => .inl h,
        fun hall z hz => ?_, fun h => h.insert x, fun h => ?_⟩
      · rcases (hmem z).1 hz with h | h
        · exact hall z h
        · exact List.mem_singleton.1 h ▸ hxq
      · have hlt := length_insert h hx
        show s.work.length + s.found.length ≤ s.work.length + (insert x s.found).length
        omega
    · refine ⟨hmem, fun _ h => List.mem_cons_of_mem _ h, fun z hz => ?_,
        fun z h => (mem_insert x z _).2 (.inr h), fun z hz => ?_, fun hall z hz => ?_,
        fun h => h.insert x, fun h => ?_⟩
      · exact (List.mem_cons.1 hz).symm.imp_right List.mem_singleton.2
      · rcases (mem_insert x z _).1 hz with rfl | h
        · exact .inr List.mem_cons_self
        · exact .inl h
      · rcases (hmem z).1 hz with h | h
        · exact (mem_insert x z _).2 (.inr (hall z h))
        · exact (mem_insert x z _).2 (.inl (List.mem_singleton.1 h))
      · have hlt := length_insert h hx
        show (s.work.length + 1) + s.found.length ≤ s.work.length + (insert x s.found).length
        omega

/-- Finding after finding. -/
private theorem Finds.trans (h : Finds l s s') (h' : Finds m s' s'') : Finds (l ++ m) s s'' where
  mem_found z := by rw [h'.mem_found, h.mem_found, List.mem_append, or_assoc]
  work z hz := h'.work z (h.work z hz)
  mem_work z hz := by
    rw [List.mem_append]
    rcases h'.mem_work z hz with hz | hz
    · exact (h.mem_work z hz).imp_right .inl
    · exact .inr (.inr hz)
  queued z hz := h'.queued z (h.queued z hz)
  mem_queued z hz := by
    rcases h'.mem_queued z hz with hz | hz
    · exact (h.mem_queued z hz).imp_right (h'.work z)
    · exact .inr hz
  found_queued hs := h'.found_queued (h.found_queued hs)
  sorted hs := h'.sorted (h.sorted hs)
  length_le hs := by
    have h₁ := h.length_le hs
    have h₂ := h'.length_le (h.sorted hs)
    omega

/-- A search finds the nodes of a list. -/
private theorem finds_foldl (l : List Node) (s : FrontierSearch) : Finds l s (l.foldl find s) := by
  induction l generalizing s with
  | nil =>
    exact ⟨by simp, fun _ h => h, fun _ h => .inl h, fun _ h => h, fun _ h => .inl h, id, id,
      fun _ => Nat.le_refl _⟩
  | cons x l ih => exact (finds_find s x).trans (ih (s.find x))

/-- What holds all through the search: `defs` and what was found are to be worked on, and a node that
was worked on has its frontier found. -/
private structure Sound (frontiers : List (Node × List Node)) (defs : List Node)
    (s : FrontierSearch) : Prop where
  sorted : Sorted id s.found
  inside : ∀ z ∈ s.found, z ∈ frontiers.map Prod.fst
  defs_queued : ∀ z ∈ defs, z ∈ s.queued
  found_queued : ∀ z ∈ s.found, z ∈ s.queued
  worked : ∀ z ∈ s.queued, z ∈ s.work ∨ ∀ y ∈ frontierOf frontiers z, y ∈ s.found

/-- Working on one node. -/
private theorem Sound.step (h : Sound frontiers defs s) {work : List Node}
    (hwork : s.work = x :: work)
    (hinside : ∀ x, ∀ y ∈ frontierOf frontiers x, y ∈ frontiers.map Prod.fst) :
    Sound frontiers defs ((frontierOf frontiers x).foldl find { s with work := work }) := by
  have hfinds := finds_foldl (frontierOf frontiers x) { s with work := work }
  refine ⟨hfinds.sorted h.sorted, fun z hz => ?_, fun z hz => hfinds.queued z (h.defs_queued z hz),
    hfinds.found_queued h.found_queued, fun z hz => ?_⟩
  · rcases (hfinds.mem_found z).1 hz with hz | hz
    · exact h.inside z hz
    · exact hinside x z hz
  · rcases hfinds.mem_queued z hz with hz | hz
    · rcases h.worked z hz with hz | hz
      · rw [hwork] at hz
        rcases List.mem_cons.1 hz with rfl | hz
        · -- This is the node that was worked on now.
          exact .inr fun y hy => (hfinds.mem_found y).2 (.inr hy)
        · exact .inl (hfinds.work z hz)
      · exact .inr fun y hy => (hfinds.mem_found y).2 (.inl (hz y hy))
    · exact .inl hz

/-- The search ends with nothing left to work on: every node is to be worked on once more only after
it was found, which happens once. -/
private theorem Sound.run (h : Sound frontiers defs s)
    (hkeys : Sorted id (frontiers.map Prod.fst))
    (hinside : ∀ x, ∀ y ∈ frontierOf frontiers x, y ∈ frontiers.map Prod.fst) (fuel : Nat)
    (hfuel : s.work.length + frontiers.length ≤ fuel + s.found.length) :
    Sound frontiers defs (run frontiers fuel s) ∧ (run frontiers fuel s).work = [] := by
  induction fuel generalizing s with
  | zero =>
    -- All keys have been found by now, so nothing is left to visit.
    have hle := (h.sorted.sublist_of_subset hkeys h.inside).length_le
    rw [List.length_map] at hle
    refine ⟨h, List.eq_nil_of_length_eq_zero ?_⟩
    show s.work.length = 0
    omega
  | succ fuel ih =>
    unfold FrontierSearch.run
    split
    · rename_i hwork
      exact ⟨h, hwork⟩
    · rename_i x work hwork
      apply ih (h.step hwork hinside)
      -- A step takes one node from the work and adds what it finds, so the sum goes down.
      have hle := (finds_foldl (frontierOf frontiers x) { s with work := work }).length_le h.sorted
      have hlen : s.work.length = work.length + 1 := by
        rw [hwork]
        rfl
      change _ + s.found.length ≤ work.length + _ at hle
      omega

/-- What holds of all that one step finds holds of all that the search finds. -/
private theorem run_induction {P : Node → Prop}
    (step : ∀ x y, x ∈ defs ∨ P x → y ∈ frontierOf frontiers x → P y) (fuel : Nat)
    (hwork : ∀ z ∈ s.work, z ∈ defs ∨ P z) (hfound : ∀ z ∈ s.found, P z) :
    ∀ z ∈ (run frontiers fuel s).found, P z := by
  induction fuel generalizing s with
  | zero => exact hfound
  | succ fuel ih =>
    unfold run
    split
    · exact hfound
    · rename_i x work heq
      have hx : x ∈ defs ∨ P x := hwork x (heq ▸ List.mem_cons_self)
      have hfinds := finds_foldl (frontierOf frontiers x) { s with work := work }
      apply ih
      · intro z hz
        rcases hfinds.mem_work z hz with hz | hz
        · exact hwork z (heq ▸ List.mem_cons_of_mem x hz)
        · exact .inr (step x z hx hz)
      · intro z hz
        rcases (hfinds.mem_found z).1 hz with hz | hz
        · exact hfound z hz
        · exact step x z hx hz

end FrontierSearch

/-- The iterated frontier holds the frontiers of the definitions and of its own members. -/
theorem mem_iteratedFrontier_of_mem
    (hsorted : Sorted id (frontiers.map Prod.fst))
    (hinside : ∀ x, ∀ y ∈ frontierOf frontiers x, y ∈ frontiers.map Prod.fst)
    (hx : x ∈ defs ∨ x ∈ iteratedFrontier frontiers defs)
    (hy : y ∈ frontierOf frontiers x) : y ∈ iteratedFrontier frontiers defs := by
  have hstart : FrontierSearch.Sound frontiers defs ⟨defs.reverse, defs, []⟩ :=
    ⟨List.Pairwise.nil, fun _ h => absurd h List.not_mem_nil, fun _ h => h,
      fun _ h => absurd h List.not_mem_nil, fun _ h => .inl (List.mem_reverse.2 h)⟩
  obtain ⟨hsound, hwork⟩ := hstart.run hsorted hinside (defs.length + frontiers.length) (by simp)
  have hqueued := hx.elim (hsound.defs_queued x) (hsound.found_queued x)
  rcases hsound.worked x hqueued with h | h
  · rw [hwork] at h
    exact absurd h List.not_mem_nil
  · exact h y hy

/-- What the frontiers of the definitions have and pass on to their own frontiers holds of every
member of the iterated frontier. -/
theorem iteratedFrontier_induction {P : Node → Prop}
    (step : ∀ x y, x ∈ defs ∨ P x → y ∈ frontierOf frontiers x → P y)
    (hy : y ∈ iteratedFrontier frontiers defs) : P y :=
  FrontierSearch.run_induction step _ (fun _ hz => .inl (List.mem_reverse.1 hz))
    (fun _ hz => absurd hz List.not_mem_nil) y hy

end HotRegion.Flow
