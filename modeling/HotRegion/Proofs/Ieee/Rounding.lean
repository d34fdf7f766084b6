import HotRegion.Ieee.Arithmetic
import Mathlib

/-!
# Rounding in two steps

Rounding a number to an integral one and then to an integer toward zero gives what rounding it to an
integer at once gives: the integral number in between is exact.

## Key results

- `toWord_roundIntegral32`, `toWord_roundIntegral64`: the two ways agree in both formats
-/

namespace HotRegion.Ieee

variable {fmt : Format} {n : Nat}

theorem twoPow_eq (k : Nat) : twoPow k = 2 ^ k := rfl

/-- A format with enough exponents for every integer that fits its fraction. -/
structure Format.Roomy (fmt : Format) : Prop where
  exponent : 2 ≤ fmt.exponent
  fraction : fmt.fraction + 1 < 2 ^ (fmt.exponent - 1)

/-- Singles have room for their significands. -/
theorem roomy_single : Format.single.Roomy := ⟨by decide, by decide⟩

/-- Doubles have room for their significands. -/
theorem roomy_double : Format.double.Roomy := ⟨by decide, by decide⟩

/-- Half of a number with one bit more than the fraction fits the fraction. -/
theorem roundShift_le {m k : Nat} (hm : m < 2 ^ (fmt.fraction + 1)) (hk : 1 ≤ k) :
    roundShift m k ≤ 2 ^ fmt.fraction := by
  have hpow : 2 ^ 1 ≤ 2 ^ k := Nat.pow_le_pow_right (by decide) hk
  have hq : m / 2 ^ k < 2 ^ fmt.fraction := by
    apply (Nat.div_lt_iff_lt_mul (Nat.two_pow_pos k)).2
    calc m < 2 ^ fmt.fraction * 2 ^ 1 := by rw [← Nat.pow_add]; exact hm
      _ ≤ 2 ^ fmt.fraction * 2 ^ k := Nat.mul_le_mul_left _ hpow
  have hround : roundShift m k ≤ m / 2 ^ k + 1 := by
    unfold roundShift
    grind [twoPow_eq]
  omega

/-- The significand of a normal number that holds `n`. -/
def significand (fmt : Format) (n : Nat) : Nat := n * 2 ^ (fmt.fraction - n.log2)

/-- A number below the significands has few bits. -/
theorem log2_le (h0 : n ≠ 0) (hn : n ≤ 2 ^ fmt.fraction) : n.log2 ≤ fmt.fraction := by
  have : n.log2 < fmt.fraction + 1 := by
    apply (Nat.log2_lt h0).2
    exact Nat.lt_of_le_of_lt hn (Nat.pow_lt_pow_right (by decide) (Nat.lt_succ_self _))
  omega

/-- A significand has its highest bit set and no bit above. -/
theorem significand_le (h0 : n ≠ 0) (hn : n ≤ 2 ^ fmt.fraction) :
    2 ^ fmt.fraction ≤ significand fmt n ∧ significand fmt n < 2 ^ fmt.fraction * 2 := by
  have hlog := log2_le h0 hn
  have hpos := Nat.two_pow_pos (fmt.fraction - n.log2)
  have hpow : 2 ^ fmt.fraction = 2 ^ n.log2 * 2 ^ (fmt.fraction - n.log2) := by
    rw [← Nat.pow_add, Nat.add_sub_cancel' hlog]
  constructor
  · rw [hpow]
    exact Nat.mul_le_mul_right _ (Nat.log2_self_le h0)
  · have hlt : n < 2 ^ n.log2 * 2 := Nat.lt_log2_self
    calc significand fmt n < 2 ^ n.log2 * 2 * 2 ^ (fmt.fraction - n.log2) :=
          Nat.mul_lt_mul_of_pos_right hlt hpos
      _ = 2 ^ fmt.fraction * 2 := by rw [hpow, Nat.mul_right_comm]

/-- The last bit of the exponent doubles its range. -/
theorem Format.Roomy.two_pow_exponent (h : fmt.Roomy) :
    2 ^ fmt.exponent = 2 ^ (fmt.exponent - 1) * 2 := by
  rw [← Nat.pow_succ, Nat.succ_eq_add_one, Nat.sub_add_cancel (by have := h.exponent; omega)]

/-- The least scale, written with the sizes of the two fields. -/
theorem minScale_eq (fmt : Format) :
    fmt.minScale = 2 - (2 ^ (fmt.exponent - 1) : Nat) - fmt.fraction := by
  have := Nat.two_pow_pos (fmt.exponent - 1)
  simp only [Format.minScale, Format.bias, twoPow_eq]
  omega

/-- An integer below the size of the fraction is a normal number of the format. -/
theorem nearest_eq (h : fmt.Roomy) (negative : Bool) (h0 : n ≠ 0) (hn : n ≤ 2 ^ fmt.fraction) :
    fmt.nearest negative n 0 = (if negative then fmt.signBit else 0) +
      ((n.log2 + (2 ^ (fmt.exponent - 1) - 1)) * 2 ^ fmt.fraction +
        (significand fmt n - 2 ^ fmt.fraction)) := by
  have hlog := log2_le h0 hn
  obtain ⟨hlow, hhigh⟩ := significand_le h0 hn
  have hroom := h.fraction
  have hexp := h.two_pow_exponent
  have hmin := minScale_eq fmt
  -- The number is normal, so its scale is given by its highest bit alone.
  have hscale : max ((n.log2 : Int) + 0 - fmt.fraction) fmt.minScale = n.log2 - fmt.fraction := by
    omega
  have hsteps : ((n.log2 : Int) - fmt.fraction - fmt.minScale).toNat =
      n.log2 + (2 ^ (fmt.exponent - 1) - 2) := by omega
  have hrounded : roundScaled n (0 - ((n.log2 : Int) - fmt.fraction)) = significand fmt n := by
    have hnat : (0 - ((n.log2 : Int) - fmt.fraction)).toNat = fmt.fraction - n.log2 := by omega
    rw [roundScaled, if_pos (by omega), hnat]
    rfl
  simp only [Format.nearest, if_neg h0, hscale, hsteps, hrounded, twoPow_eq]
  congr 1
  generalize hE : 2 ^ (fmt.exponent - 1) = E at *
  -- The hidden bit of the significand is carried into the exponent.
  have hmul : (n.log2 + (E - 1)) * 2 ^ fmt.fraction =
      (n.log2 + (E - 2)) * 2 ^ fmt.fraction + 2 ^ fmt.fraction := by
    rw [← Nat.succ_mul]
    congr 1
    omega
  -- A number this small is far from infinity.
  have hinf : (n.log2 + (E - 1) + 1) * 2 ^ fmt.fraction ≤ fmt.infinity := by
    simp only [Format.infinity, twoPow_eq, hexp]
    apply Nat.mul_le_mul_right
    omega
  rw [Nat.succ_mul] at hinf
  omega

/-- The finite number with the fields `x` and `F`. -/
theorem value_of_fields (negative : Bool) {x F : Nat} (hx : x < 2 ^ fmt.exponent - 1)
    (hF : F < 2 ^ fmt.fraction) :
    fmt.value ((if negative then fmt.signBit else 0) + (x * 2 ^ fmt.fraction + F)) =
      if x = 0 then .finite negative F fmt.minScale
      else .finite negative (F + 2 ^ fmt.fraction) (fmt.minScale + x - 1) := by
  -- Sign, exponent and fraction lie next to each other, so division by powers of two takes them
  -- apart.
  have hsign : (if negative then fmt.signBit else 0) =
      negative.toNat * 2 ^ fmt.exponent * 2 ^ fmt.fraction := by
    simp only [Format.signBit, twoPow_eq, Nat.pow_add]
    cases negative <;> simp [Nat.mul_comm]
  rw [hsign, ← Nat.add_assoc, ← Nat.add_mul]
  have hmod : ((negative.toNat * 2 ^ fmt.exponent + x) * 2 ^ fmt.fraction + F) % 2 ^ fmt.fraction =
      F := by
    rw [Nat.mul_comm, Nat.mul_add_mod, Nat.mod_eq_of_lt hF]
  have hdiv : ((negative.toNat * 2 ^ fmt.exponent + x) * 2 ^ fmt.fraction + F) / 2 ^ fmt.fraction =
      negative.toNat * 2 ^ fmt.exponent + x := by
    rw [Nat.mul_comm, Nat.mul_add_div (Nat.two_pow_pos _), Nat.div_eq_of_lt hF, Nat.add_zero]
  have hlt : x < 2 ^ fmt.exponent := by omega
  have hfield : (negative.toNat * 2 ^ fmt.exponent + x) % 2 ^ fmt.exponent = x := by
    rw [Nat.mul_comm, Nat.mul_add_mod, Nat.mod_eq_of_lt hlt]
  have htop : (negative.toNat * 2 ^ fmt.exponent + x) / 2 ^ fmt.exponent = negative.toNat := by
    rw [Nat.mul_comm, Nat.mul_add_div (Nat.two_pow_pos _), Nat.div_eq_of_lt hlt, Nat.add_zero]
  have hneg : (negative.toNat % 2 == 1) = negative := by cases negative <;> rfl
  simp only [Format.value, twoPow_eq, Format.signBit, hmod, hdiv, hfield]
  rw [Nat.pow_add, ← Nat.div_div_eq_div_mul, hdiv, htop, hneg, if_neg (by omega)]

/-- What an integer below the size of the fraction denotes as a number of the format. -/
theorem value_nearest (h : fmt.Roomy) (negative : Bool) (h0 : n ≠ 0) (hn : n ≤ 2 ^ fmt.fraction) :
    fmt.value (fmt.nearest negative n 0) =
      .finite negative (significand fmt n) (n.log2 - fmt.fraction) := by
  have hlog := log2_le h0 hn
  obtain ⟨hlow, hhigh⟩ := significand_le h0 hn
  have hroom := h.fraction
  have hexp := h.two_pow_exponent
  have hmin := minScale_eq fmt
  rw [nearest_eq h negative h0 hn, value_of_fields negative (by omega) (by omega),
    if_neg (by omega)]
  congr 1 <;> omega

/-- The significand of a value fits the fraction and its hidden bit. -/
theorem significand_lt {bits m : Nat} {negative : Bool} {s : Int}
    (h : fmt.value bits = .finite negative m s) : m < 2 ^ (fmt.fraction + 1) := by
  have hlt := Nat.mod_lt bits (twoPow_pos fmt.fraction)
  change m < twoPow fmt.fraction * 2
  simp only [Format.value] at h
  split at h
  · split at h <;> cases h
  · split at h <;> cases h <;> omega

/-- Both signs of zero are numbers. -/
theorem value_nearest_zero (h : fmt.Roomy) (negative : Bool) :
    fmt.value (fmt.nearest negative 0 0) = .finite negative 0 fmt.minScale := by
  have hexp := Nat.pow_le_pow_right (n := 2) (by decide) h.exponent
  have hzero := value_of_fields negative (x := 0) (show 0 < 2 ^ fmt.exponent - 1 by omega)
    (Nat.two_pow_pos fmt.fraction)
  rwa [if_pos rfl, Nat.zero_mul, Nat.add_zero] at hzero

/-- The integer that a number of the format denotes, rounded toward zero after it was made
integral, is the one it rounds to. -/
theorem toInt?_roundIntegral (h : fmt.Roomy) (bits : Nat) :
    (fmt.value (fmt.roundIntegral .nearestEven bits)).toInt? .towardZero =
      (fmt.value bits).toInt? .nearestEven := by
  unfold Format.roundIntegral
  cases hv : fmt.value bits with
  | nan => simp only [hv, Value.toInt?]
  | infinite negative => simp only [hv, Value.toInt?]
  | finite negative m s =>
    simp only
    split
    next hs => simp [hv, Value.toInt?, Rounding.apply, roundScaled, hs]
    next hs =>
      have hm := significand_lt hv
      have hn : roundScaled m s ≤ 2 ^ fmt.fraction := by
        rw [roundScaled, if_neg hs]
        exact roundShift_le hm (by omega)
      change Value.toInt? _ (fmt.value (fmt.nearest negative (roundScaled m s) 0)) =
        some (if negative then -(roundScaled m s : Int) else roundScaled m s)
      generalize roundScaled m s = n at *
      -- A finite number is rounded first; what comes out is zero or normal, and exact.
      by_cases h0 : n = 0
      · subst h0
        rw [value_nearest_zero h]
        simp [Value.toInt?, Rounding.apply]
      · rw [value_nearest h negative h0 hn]
        have hlog := log2_le h0 hn
        have hexact : Rounding.towardZero.apply (significand fmt n)
            ((n.log2 : Int) - fmt.fraction) = n := by
          simp only [Rounding.apply, significand, twoPow_eq]
          split
          next hle =>
            have h1 : fmt.fraction - n.log2 = 0 := by omega
            have h2 : ((n.log2 : Int) - fmt.fraction).toNat = 0 := by omega
            rw [h1, h2, Nat.pow_zero, Nat.mul_one, Nat.mul_one]
          next hle =>
            have h2 : (-((n.log2 : Int) - fmt.fraction)).toNat = fmt.fraction - n.log2 := by omega
            rw [h2, Nat.mul_div_cancel _ (Nat.two_pow_pos _)]
        simp only [Value.toInt?, hexact]

/-- What is rounded fits the bits of the format. -/
theorem nearest_lt (negative : Bool) (m : Nat) (s : Int) :
    fmt.nearest negative m s < 2 * fmt.signBit := by
  have hpos : 0 < fmt.signBit := twoPow_pos _
  have hinf : fmt.infinity < fmt.signBit := by
    simp only [Format.infinity, Format.signBit, twoPow_eq, Nat.pow_add]
    rw [Nat.mul_comm (2 ^ fmt.fraction)]
    have hlt : 2 ^ fmt.exponent - 1 < 2 ^ fmt.exponent := Nat.sub_lt (Nat.two_pow_pos _) (by decide)
    exact Nat.mul_lt_mul_of_pos_right hlt (Nat.two_pow_pos _)
  simp only [Format.nearest]
  split <;> split <;> omega

/-- A rounded number has the bits of its format only. -/
theorem roundIntegral_lt {bits : Nat} (mode : Rounding) (h : bits < 2 * fmt.signBit) :
    fmt.roundIntegral mode bits < 2 * fmt.signBit := by
  unfold Format.roundIntegral
  split
  · split
    · exact h
    · exact nearest_lt _ _ _
  · exact h

/-- Both ways to round a single to a word agree. -/
theorem toWord_roundIntegral32 (a : UInt32) :
    toWord .towardZero (value32 (roundIntegral32 .nearestEven a)) =
      toWord .nearestEven (value32 a) := by
  have hlt : Format.single.roundIntegral .nearestEven a.toNat < 2 ^ 32 :=
    roundIntegral_lt _ a.toNat_lt
  simp only [toWord, value32, roundIntegral32]
  rw [UInt32.toNat_ofNat_of_lt' hlt, toInt?_roundIntegral roomy_single]

/-- Both ways to round a double to a word agree. -/
theorem toWord_roundIntegral64 (a : UInt64) :
    toWord .towardZero (value64 (roundIntegral64 .nearestEven a)) =
      toWord .nearestEven (value64 a) := by
  have hlt : Format.double.roundIntegral .nearestEven a.toNat < 2 ^ 64 :=
    roundIntegral_lt _ a.toNat_lt
  simp only [toWord, value64, roundIntegral64]
  rw [UInt64.toNat_ofNat_of_lt' hlt, toInt?_roundIntegral roomy_double]

end HotRegion.Ieee
