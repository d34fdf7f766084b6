import HotRegion.Ascending

/-!
# Laws of ascending lists

Membership in the operations on ascending lists, and the order between such lists: one that holds
a part of another's elements is a sublist of it, and equal to it if it is as long.

## Key results

- `mem_ofList` / `mem_union`: the members of a list turned into a set, and of a union
- `Sorted.sublist_of_subset`: inclusion of ascending lists is the sublist order
- `lookup_put`: what a key maps to after an entry is put into a table
-/

namespace HotRegion.Ascending

variable {α : Type} {key : α → Nat} {l m : List α} {x y : α}

/-! ## Members -/

/-- The elements of a union are those of its parts. -/
theorem mem_union (hkey : ∀ x y, key x = key y → x = y) (x : α) (l m : List α) :
    x ∈ union key l m ↔ x ∈ l ∨ x ∈ m := by
  unfold union
  induction m generalizing l with
  | nil => simp
  | cons y m ih =>
    rw [List.foldl_cons, ih, mem_insert hkey, List.mem_cons, or_assoc]
    exact or_left_comm

/-- The elements of the ascending list of a list. -/
theorem mem_ofList (hkey : ∀ x y, key x = key y → x = y) (x : α) (l : List α) :
    x ∈ ofList key l ↔ x ∈ l := by
  have h := mem_union hkey x [] l
  simpa [union, ofList] using h

/-! ## Order -/

/-- A union of lists is in order if the first one is. -/
theorem Sorted.union (hl : Sorted key l) (m : List α) : Sorted key (union key l m) := by
  unfold Ascending.union
  induction m generalizing l with
  | nil => exact hl
  | cons y m ih => exact ih (hl.insert y)

/-- A list in order has no element twice. -/
theorem Sorted.nodup (h : Sorted key l) : l.Nodup := by
  refine List.Pairwise.imp (fun {x y} hxy heq => ?_) h
  rw [heq] at hxy
  exact Nat.lt_irrefl _ hxy

/-- An ascending list that holds a part of another's elements is a sublist of it. -/
theorem Sorted.sublist_of_subset (hl : Sorted key l) (hm : Sorted key m) (h : ∀ x ∈ l, x ∈ m) :
    l.Sublist m := by
  induction m generalizing l with
  | nil =>
    cases l with
    | nil => exact .slnil
    | cons x l => exact absurd (h x List.mem_cons_self) List.not_mem_nil
  | cons y m ih =>
    have ⟨hy, hm'⟩ := List.pairwise_cons.1 hm
    cases l with
    | nil => exact List.nil_sublist _
    | cons x l =>
      have ⟨hx, hl'⟩ := List.pairwise_cons.1 hl
      -- Either both lists start with `x`, or all of the first one is behind `y`.
      rcases List.mem_cons.1 (h x List.mem_cons_self) with rfl | hxm
      · refine .cons_cons _ (ih hl' hm' fun z hz => ?_)
        refine (List.mem_cons.1 (h z (List.mem_cons_of_mem _ hz))).resolve_left fun hzx => ?_
        have := hx z hz
        rw [hzx] at this
        exact Nat.lt_irrefl _ this
      · refine .cons _ (ih hl hm' fun z hz => ?_)
        refine (List.mem_cons.1 (h z hz)).resolve_left fun hzy => ?_
        have hyx := hy x hxm
        rcases List.mem_cons.1 hz with rfl | hzl
        · rw [hzy] at hyx
          exact Nat.lt_irrefl _ hyx
        · have := hx z hzl
          rw [hzy] at this
          omega

/-- Ascending lists with the same elements are equal. -/
theorem Sorted.ext (hl : Sorted key l) (hm : Sorted key m) (h : ∀ x, x ∈ l ↔ x ∈ m) : l = m :=
  (hl.sublist_of_subset hm fun x hx => (h x).1 hx).eq_of_length_le
    (hm.sublist_of_subset hl fun x hx => (h x).2 hx).length_le

/-! ## Tables -/

/-- The entries after one is put into a table. -/
theorem mem_put (h : Sorted key l) (x z : α) :
    z ∈ put key x l ↔ z = x ∨ (z ∈ l ∧ key z ≠ key x) := by
  induction l with
  | nil => simp [put]
  | cons y l ih =>
    have ⟨hy, hl⟩ := List.pairwise_cons.1 h
    unfold put
    split
    · rename_i hlt
      -- All that follows has a greater key, so nothing is replaced.
      have hne : ∀ z ∈ y :: l, key z ≠ key x := by
        intro z hz
        rcases List.mem_cons.1 hz with rfl | hz
        · omega
        · have := hy z hz
          omega
      simp only [List.mem_cons] at hne ⊢
      grind
    · split
      · rename_i heq
        have hne : ∀ z ∈ l, key z ≠ key x := fun z hz => by
          have := hy z hz
          omega
        simp only [List.mem_cons]
        grind
      · simp only [List.mem_cons, ih hl]
        grind

/-- Putting something new makes the list longer by one. -/
theorem length_put (hnew : ∀ y ∈ l, key y ≠ key x) : (put key x l).length = l.length + 1 := by
  induction l with
  | nil => rfl
  | cons y l ih =>
    have hy : key x ≠ key y := (hnew y List.mem_cons_self).symm
    unfold put
    split
    · rfl
    · rw [List.length_cons, ih fun z hz => hnew z (List.mem_cons_of_mem _ hz), List.length_cons]

/-- A list stays in order when something is put into it. -/
theorem Sorted.put (h : Sorted key l) (x : α) : Sorted key (put key x l) := by
  induction l with
  | nil => simp [Ascending.put, Sorted]
  | cons y l ih =>
    obtain ⟨hy, hl⟩ := List.pairwise_cons.1 h
    unfold Ascending.put
    split
    · rename_i hlt
      refine List.pairwise_cons.2 ⟨fun z hz => ?_, h⟩
      rcases List.mem_cons.1 hz with rfl | hz
      · exact hlt
      · exact Nat.lt_trans hlt (hy z hz)
    · split
      · rename_i heq
        exact List.pairwise_cons.2 ⟨fun z hz => heq ▸ hy z hz, hl⟩
      · refine List.pairwise_cons.2 ⟨fun z hz => ?_, ih hl⟩
        rcases (mem_put hl x z).1 hz with rfl | ⟨hz, _⟩
        · omega
        · exact hy z hz

/-! ## Tables -/

section Tables

variable {β : Type} [DecidableEq α] {table : List (α × β)} {b : β}

/-- A table maps a key to what it lists for it. -/
theorem lookup_eq_some_iff (h : Sorted (fun p : α × β => key p.1) table) :
    table.lookup x = some b ↔ (x, b) ∈ table := by
  induction table with
  | nil => simp
  | cons p l ih =>
    obtain ⟨y, c⟩ := p
    have ⟨hp, hl⟩ := List.pairwise_cons.1 h
    by_cases hxy : x = y
    · subst hxy
      simp only [List.lookup_cons, beq_self_eq_true, Option.some.injEq, List.mem_cons,
        Prod.mk.injEq, true_and]
      refine ⟨fun hb => Or.inl hb.symm, fun hb => ?_⟩
      rcases hb with hb | hb
      · exact hb.symm
      · exact absurd (hp _ hb) (Nat.lt_irrefl _)
    · have hbeq : (x == y) = false := by simpa using hxy
      simp only [List.lookup_cons, hbeq, ih hl, List.mem_cons, Prod.mk.injEq, hxy, false_and,
        false_or]

/-- The table after an entry is put in. -/
theorem lookup_put (hkey : ∀ x y, key x = key y → x = y)
    (h : Sorted (fun p : α × β => key p.1) table) (y : α) (b : β) (x : α) :
    (put (fun p : α × β => key p.1) (y, b) table).lookup x =
      if x = y then some b else table.lookup x := by
  have hput := mem_put h (y, b)
  have hsorted := h.put (y, b)
  ext c
  rw [lookup_eq_some_iff hsorted, hput]
  by_cases hx : x = y
  · subst hx
    simp [eq_comm]
  · have hne : key x ≠ key y := fun h => hx (hkey x y h)
    simp [hx, hne, lookup_eq_some_iff h]

end Tables

end HotRegion.Ascending
