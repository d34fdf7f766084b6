import HotRegion.Text.Number
import HotRegion.Text.Numeral
import Mathlib.Data.List.Induction
import Mathlib.Tactic.SplitIfs

/-!
# Hexadecimal numerals

The grammar of a hexadecimal numeral: at least one digit, and a plus sign may stand in front. Readers
of numerals take just these texts, with the number that the digits write, and the digits that a number
is printed with are one of them.

## Key results

- `numeral?_eq_some_iff`: what is read as a numeral below a bound
- `hexNumber_hexDigits8`: printed words are numerals
-/

namespace HotRegion.Text

variable {c : Char} {cs : List Char} {d n bound : Nat}

/-- The character is the digit of value `d`, in lower or upper case. -/
def IsHexDigit (c : Char) (d : Nat) : Prop :=
  d < 16 ∧ (c = Nat.digitChar d ∨ c = (Nat.digitChar d).toUpper)

/-- The characters are one or more digits that write the number, the most significant first. -/
inductive HexNumber : List Char → Nat → Prop where
  | digit {c : Char} {d : Nat} (h : IsHexDigit c d) : HexNumber [c] d
  | append {cs : List Char} {c : Char} {n d : Nat} (front : HexNumber cs n) (h : IsHexDigit c d) :
      HexNumber (cs ++ [c]) (n * 16 + d)

/-! ## Digits -/

/-- A digit is read as its value. -/
theorem digit?_of_isHexDigit (h : IsHexDigit c d) : digit? 16 c = some d := by
  have hall : ∀ d : Fin 16, digit? 16 (Nat.digitChar d) = some d.val ∧
      digit? 16 (Nat.digitChar d).toUpper = some d.val := by decide
  obtain ⟨hd, rfl | rfl⟩ := h
  · exact (hall ⟨d, hd⟩).1
  · exact (hall ⟨d, hd⟩).2

/-- What is read is a digit of that value. -/
theorem isHexDigit_of_digit? (h : digit? 16 c = some d) : IsHexDigit c d := by
  have hletter : ∀ d : Fin 16, 10 ≤ d.val → (Nat.digitChar d).toNat = 87 + d.val ∧
      (Nat.digitChar d).toUpper.toNat = 55 + d.val := by decide
  have hrange : ∀ lo hi : Char, lo ≤ c ∧ c ≤ hi ↔ lo.toNat ≤ c.toNat ∧ c.toNat ≤ hi.toNat :=
    fun _ _ => Iff.rfl
  simp only [digit?, hrange] at h
  obtain ⟨hd, hvalue⟩ := Option.ite_none_right_eq_some.1 h
  cases hvalue
  clear h
  refine ⟨hd, ?_⟩
  -- Three ranges of characters: digits, and letters in both cases.
  split_ifs at hd ⊢ with hdigit hlower hupper
  · refine .inl (Char.toNat_inj.1 ?_)
    change 48 ≤ c.toNat ∧ c.toNat ≤ 57 at hdigit
    change c.toNat = (c.toNat - 48).digitChar.toNat
    rw [Nat.toNat_digitChar_of_lt_ten (by omega)]
    omega
  · refine .inl (Char.toNat_inj.1 ?_)
    change 97 ≤ c.toNat ∧ c.toNat ≤ 122 at hlower
    refine Eq.trans ?_ (hletter ⟨_, hd⟩ (Nat.le_add_left ..)).1.symm
    change c.toNat = 87 + (c.toNat - 97 + 10)
    omega
  · refine .inr (Char.toNat_inj.1 ?_)
    change 65 ≤ c.toNat ∧ c.toNat ≤ 90 at hupper
    refine Eq.trans ?_ (hletter ⟨_, hd⟩ (Nat.le_add_left ..)).2.symm
    change c.toNat = 55 + (c.toNat - 65 + 10)
    omega
  · exact absurd hd (Nat.lt_irrefl _)

/-- Digits are read as their values and nothing else is. -/
theorem digit?_eq_some_iff : digit? 16 c = some d ↔ IsHexDigit c d :=
  ⟨isHexDigit_of_digit?, digit?_of_isHexDigit⟩

/-- Characters that mark or sign a numeral are no digits. -/
theorem not_isHexDigit_mark : ∀ c ∈ ['+', 'x', 'X'], ∀ d, ¬ IsHexDigit c d := by
  intro c hc d h
  have hnone : digit? 16 c = none := by
    simp only [List.mem_cons, List.not_mem_nil, or_false] at hc
    rcases hc with rfl | rfl | rfl <;> rfl
  rw [← digit?_eq_some_iff, hnone] at h
  cases h

/-! ## Numerals -/

/-- A last digit counts once, and those before it sixteen times. -/
theorem digitsValue?_append (cs : List Char) (c : Char) : digitsValue? 16 (cs ++ [c]) =
    (digitsValue? 16 cs).bind fun n => (digit? 16 c).map (n * 16 + ·) := by
  simp [digitsValue?, List.foldlM_append]

/-- A number is read as its value. -/
theorem digitsValue?_of_hexNumber (h : HexNumber cs n) : digitsValue? 16 cs = some n := by
  induction h with
  | digit h => simp [digitsValue?, digit?_of_isHexDigit h]
  | append _ h ih => rw [digitsValue?_append, ih, digit?_of_isHexDigit h]; rfl

/-- What is read is the number of that value. -/
theorem hexNumber_of_digitsValue? (hne : cs ≠ []) (h : digitsValue? 16 cs = some n) :
    HexNumber cs n := by
  induction cs using List.reverseRecOn generalizing n with
  | nil => exact absurd rfl hne
  | append_singleton cs c ih =>
    rw [digitsValue?_append, Option.bind_eq_some_iff] at h
    obtain ⟨front, hfront, hdigit⟩ := h
    obtain ⟨d, hd, rfl⟩ := Option.map_eq_some_iff.1 hdigit
    have hd := digit?_eq_some_iff.1 hd
    by_cases hcs : cs = []
    · subst hcs
      cases hfront
      simpa using HexNumber.digit hd
    · exact .append (ih hcs hfront) hd

/-- A number has a digit. -/
theorem HexNumber.ne_nil (h : HexNumber cs n) : cs ≠ [] := by
  cases h <;> simp

/-- All characters of a numeral are digits. -/
theorem HexNumber.isHexDigit (h : HexNumber cs n) : ∀ c ∈ cs, ∃ d, IsHexDigit c d := by
  induction h with
  | digit h => simpa using ⟨_, h⟩
  | append _ h ih =>
    intro c hc
    rcases List.mem_append.1 hc with hc | hc
    · exact ih c hc
    · exact ⟨_, List.mem_singleton.1 hc ▸ h⟩

/-- A number has neither sign nor mark. -/
theorem HexNumber.not_mem (h : HexNumber cs n) (hc : c ∈ ['+', 'x', 'X']) : c ∉ cs := fun hmem =>
  (h.isHexDigit c hmem).elim (not_isHexDigit_mark c hc)

/-- A numeral below a bound is read, with a plus sign in front or without. -/
theorem numeral?_eq_some_iff : numeral? 16 bound cs = some n ↔
    n < bound ∧ ∃ digits, (cs = digits ∨ cs = '+' :: digits) ∧ HexNumber digits n := by
  have hunsigned : ∀ cs : List Char, (if cs.isEmpty then none else (digitsValue? 16 cs).bind
      fun v => if v < bound then some v else none) = some n ↔ n < bound ∧ HexNumber cs n := by
    intro cs
    by_cases hcs : cs = []
    · subst hcs
      exact iff_of_false (by simp) fun h => h.2.ne_nil rfl
    · rw [if_neg (by simpa using hcs), Option.bind_eq_some_iff]
      constructor
      · rintro ⟨v, hv, hbound⟩
        obtain ⟨hlt, hvn⟩ := Option.ite_none_right_eq_some.1 hbound
        cases hvn
        exact ⟨hlt, hexNumber_of_digitsValue? hcs hv⟩
      · exact fun ⟨hlt, h⟩ => ⟨n, digitsValue?_of_hexNumber h, if_pos hlt⟩
  -- Only a plus sign may come before the digits, and it is no digit itself.
  by_cases hplus : ∃ rest, cs = '+' :: rest
  · obtain ⟨rest, rfl⟩ := hplus
    refine (hunsigned rest).trans (and_congr_right fun _ => ⟨fun h => ⟨rest, .inr rfl, h⟩, ?_⟩)
    rintro ⟨digits, rfl | heq, h⟩
    · exact absurd List.mem_cons_self (h.not_mem (by simp))
    · cases heq
      exact h
  · have hself : numeral? 16 bound cs = if cs.isEmpty then none else (digitsValue? 16 cs).bind
        fun v => if v < bound then some v else none := by
      unfold numeral?
      split
      · exact absurd ⟨_, rfl⟩ hplus
      · rfl
    rw [hself, hunsigned]
    refine and_congr_right fun _ => ⟨fun h => ⟨cs, .inl rfl, h⟩, ?_⟩
    rintro ⟨digits, rfl | rfl, h⟩
    · exact h
    · exact absurd ⟨_, rfl⟩ hplus

/-! ## Printed numbers -/

/-- Leading zeros do not count. -/
theorem HexNumber.zero_cons (h : HexNumber cs n) : HexNumber ('0' :: cs) n := by
  have hzero : IsHexDigit '0' 0 := ⟨by decide, .inl rfl⟩
  induction h with
  | @digit c d h =>
    have hpair : HexNumber (['0'] ++ [c]) (0 * 16 + d) := .append (.digit hzero) h
    rwa [Nat.zero_mul, Nat.zero_add] at hpair
  | append _ h ih => exact .append ih h

/-- A number is written in digits of its value. -/
theorem hexNumber_toDigits (n : Nat) : HexNumber (Nat.toDigits 16 n) n := by
  induction n using Nat.strongRecOn with
  | ind n ih =>
    have hdigit : IsHexDigit (Nat.digitChar (n % 16)) (n % 16) :=
      ⟨Nat.mod_lt _ (by decide), .inl rfl⟩
    by_cases hn : n < 16
    · rw [Nat.toDigits_of_lt_base hn]
      rw [Nat.mod_eq_of_lt hn] at hdigit
      exact .digit hdigit
    · rw [Nat.toDigits_of_base_le (by decide) (by omega)]
      have hnumber := HexNumber.append (ih (n / 16) (by omega)) hdigit
      rwa [Nat.mul_comm, Nat.div_add_mod] at hnumber

/-- The digits of a printed word are a numeral, and there are eight of them. -/
theorem hexNumber_hexDigits8 (w : UInt32) :
    HexNumber (hexDigits8 w.toNat).toList w.toNat ∧ (hexDigits8 w.toNat).toList.length = 8 := by
  have hlength : (Nat.toDigits 16 w.toNat).length ≤ 8 :=
    (Nat.length_toDigits_le_iff (by decide) (by decide)).2 w.toNat_lt
  have hlist : (hexDigits8 w.toNat).toList =
      List.replicate (8 - (Nat.toDigits 16 w.toNat).length) '0' ++ Nat.toDigits 16 w.toNat := by
    simp [hexDigits8, padLeft, hexDigits]
  rw [hlist]
  constructor
  · generalize 8 - (Nat.toDigits 16 w.toNat).length = k
    induction k with
    | zero => exact hexNumber_toDigits _
    | succ k ih => exact ih.zero_cons
  · rw [List.length_append, List.length_replicate]
    omega

end HotRegion.Text
