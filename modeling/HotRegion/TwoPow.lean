/-! # Powers of two

Sizes of memory, weights of bits and scales of numbers are powers of two. -/

namespace HotRegion

/-- Two to the power of `k`. -/
def twoPow (k : Nat) : Nat := Nat.pow 2 k

theorem twoPow_zero : twoPow 0 = 1 := rfl

theorem twoPow_succ (k : Nat) : twoPow (k + 1) = twoPow k * 2 := rfl

/-- Powers of two are positive. -/
theorem twoPow_pos (k : Nat) : 0 < twoPow k := by
  induction k with
  | zero => decide
  | succ k ih =>
    rw [twoPow_succ]
    omega

/-- The power of a sum. -/
theorem twoPow_add (k l : Nat) : twoPow (k + l) = twoPow k * twoPow l := Nat.pow_add 2 k l

/-- Powers of two divide the greater ones. -/
theorem twoPow_dvd {k l : Nat} (h : k ≤ l) : twoPow k ∣ twoPow l :=
  ⟨twoPow (l - k), by rw [← twoPow_add, Nat.add_sub_cancel' h]⟩

end HotRegion
