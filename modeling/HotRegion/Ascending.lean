/-! # Ascending lists

Finite sets kept as lists that ascend strictly by a numeric key. Two such lists with the same
members are equal, and their order is the order in which sets are listed everywhere. -/

namespace HotRegion.Ascending

variable {α : Type}

/-- Adds `x` to an ascending list, unless an element with its key is there already. -/
def insert (key : α → Nat) (x : α) : List α → List α
  | [] => [x]
  | y :: ys =>
    if key x < key y then x :: y :: ys
    else if key x = key y then y :: ys
    else y :: insert key x ys

/-- Adds `x` to an ascending list in place of an element with its key. -/
def put (key : α → Nat) (x : α) : List α → List α
  | [] => [x]
  | y :: ys =>
    if key x < key y then x :: y :: ys
    else if key x = key y then x :: ys
    else y :: put key x ys

/-- The ascending list of the elements of a list. -/
def ofList (key : α → Nat) (l : List α) : List α := l.foldl (fun acc x => insert key x acc) []

/-- All elements of two lists. -/
def union (key : α → Nat) (l m : List α) : List α := m.foldl (fun acc x => insert key x acc) l

/-- The list ascends strictly. -/
def Sorted (key : α → Nat) (l : List α) : Prop := l.Pairwise fun x y => key x < key y

/-- An insertion adds one element, where no two have the same key. -/
theorem mem_insert {key : α → Nat} (hkey : ∀ x y, key x = key y → x = y) (x z : α) (l : List α) :
    z ∈ insert key x l ↔ z = x ∨ z ∈ l := by
  induction l with
  | nil => simp [insert]
  | cons y ys ih =>
    unfold insert
    split
    · simp
    · split
      · rename_i h
        have := hkey x y h
        subst this
        simp
      · simp only [List.mem_cons, ih]
        exact or_left_comm

/-- An insertion adds no other element. -/
theorem eq_or_mem_of_mem_insert {key : α → Nat} {x z : α} {l : List α} (h : z ∈ insert key x l) :
    z = x ∨ z ∈ l := by
  induction l with
  | nil => simpa [insert] using h
  | cons y ys ih =>
    unfold insert at h
    split at h
    · simpa using h
    · split at h
      · exact Or.inr h
      · rcases List.mem_cons.1 h with rfl | h
        · exact Or.inr List.mem_cons_self
        · exact (ih h).imp_right (List.mem_cons_of_mem _)

/-- A list stays in order under insertions. -/
theorem Sorted.insert {key : α → Nat} {l : List α} (h : Sorted key l) (x : α) :
    Sorted key (Ascending.insert key x l) := by
  induction l with
  | nil => simp [Ascending.insert, Sorted]
  | cons y ys ih =>
    have ⟨hy, hys⟩ := List.pairwise_cons.1 h
    unfold Ascending.insert
    split
    · rename_i hlt
      refine List.pairwise_cons.2 ⟨fun z hz => ?_, h⟩
      rcases List.mem_cons.1 hz with rfl | hz
      · exact hlt
      · exact Nat.lt_trans hlt (hy z hz)
    · split
      · exact h
      · rename_i hnlt hne
        refine List.pairwise_cons.2 ⟨fun z hz => ?_, ih hys⟩
        rcases eq_or_mem_of_mem_insert hz with rfl | hz
        · omega
        · exact hy z hz

end HotRegion.Ascending
