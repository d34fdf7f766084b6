import HotRegion.TwoPow

/-! # Binary floating-point formats

The bits of a number in one of the two binary formats, what they denote, and rounding back to the
nearest representable number. A datum denotes a NaN, an infinity or a sign with a natural
significand and a power of two, so comparison and rounding are exact integer arithmetic. -/

namespace HotRegion.Ieee

/-- A binary interchange format: the widths of its fraction and exponent fields. -/
structure Format where
  fraction : Nat
  exponent : Nat

namespace Format

/-- The 32-bit format. -/
def single : Format := ⟨23, 8⟩

/-- The 64-bit format. -/
def double : Format := ⟨52, 11⟩

/-- What the exponent field of a number in `[1, 2)` holds. -/
def bias (fmt : Format) : Int := twoPow (fmt.exponent - 1) - 1

/-- The power of two of the last fraction bit of the smallest numbers. -/
def minScale (fmt : Format) : Int := 1 - fmt.bias - fmt.fraction

/-- The bits of an infinity without its sign. -/
def infinity (fmt : Format) : Nat := (twoPow fmt.exponent - 1) * twoPow fmt.fraction

/-- The weight of the sign bit. -/
def signBit (fmt : Format) : Nat := twoPow (fmt.fraction + fmt.exponent)

end Format

/-- What a datum denotes. -/
inductive Value where
  | nan
  | infinite (negative : Bool)
  /-- The number `± significand * 2 ^ scale`. -/
  | finite (negative : Bool) (significand : Nat) (scale : Int)

/-- The datum that the bits `bits` hold in format `fmt`. -/
def Format.value (fmt : Format) (bits : Nat) : Value :=
  let fraction := bits % twoPow fmt.fraction
  let exponent := bits / twoPow fmt.fraction % twoPow fmt.exponent
  let negative := bits / fmt.signBit % 2 == 1
  if exponent = twoPow fmt.exponent - 1 then
    if fraction = 0 then .infinite negative else .nan
  else if exponent = 0 then
    .finite negative fraction fmt.minScale
  else
    .finite negative (fraction + twoPow fmt.fraction) (fmt.minScale + exponent - 1)

/-- `n / 2 ^ k`, rounded to the nearest integer; a tie goes to the even neighbour. -/
def roundShift (n k : Nat) : Nat :=
  let q := n / twoPow k
  let r := n % twoPow k
  if 2 * r < twoPow k then q
  else if twoPow k < 2 * r then q + 1
  else if q % 2 = 0 then q
  else q + 1

/-- `m * 2 ^ s`, rounded to the nearest integer; a tie goes to the even neighbour. -/
def roundScaled (m : Nat) (s : Int) : Nat :=
  if 0 ≤ s then m * twoPow s.toNat else roundShift m (-s).toNat

/-- The bits in format `fmt` of the number nearest to `± m * 2 ^ s`; a tie goes to the even
neighbour, and what lies beyond the largest number becomes an infinity.

The sum below needs no case for small numbers: a significand with its leading bit set adds one to
the exponent field, and one without it leaves the field zero. -/
def Format.nearest (fmt : Format) (negative : Bool) (m : Nat) (s : Int) : Nat :=
  let sign := if negative then fmt.signBit else 0
  if m = 0 then sign
  else
    let scale := max (m.log2 + s - fmt.fraction) fmt.minScale
    let magnitude := (scale - fmt.minScale).toNat * twoPow fmt.fraction + roundScaled m (s - scale)
    sign + min magnitude fmt.infinity

/-- The order of two data, if neither is a NaN. Both zeros are equal. -/
def Value.compare : Value → Value → Option Ordering
  | .nan, _ | _, .nan => none
  | .infinite a, .infinite b => some (Ord.compare b.toNat a.toNat)
  | .infinite a, .finite .. => some (if a then .lt else .gt)
  | .finite .., .infinite b => some (if b then .gt else .lt)
  | .finite a m s, .finite b n t =>
    let base := min s t
    let x := (m * twoPow (s - base).toNat : Nat)
    let y := (n * twoPow (t - base).toNat : Nat)
    some (Ord.compare (if a then -(x : Int) else x) (if b then -(y : Int) else y))

/-- The ways a number is rounded to an integer. -/
inductive Rounding where
  /-- To the nearest, a tie to the even neighbour. -/
  | nearestEven
  /-- Toward zero. -/
  | towardZero
  deriving DecidableEq

/-- The magnitude of `m * 2 ^ s` rounded to an integer. -/
def Rounding.apply (mode : Rounding) (m : Nat) (s : Int) : Nat :=
  match mode with
  | .nearestEven => roundScaled m s
  | .towardZero => if 0 ≤ s then m * twoPow s.toNat else m / twoPow (-s).toNat

/-- The integer a datum rounds to; NaN and the infinities have none. -/
def Value.toInt? (mode : Rounding) : Value → Option Int
  | .nan | .infinite _ => none
  | .finite negative m s =>
    let n := mode.apply m s
    some (if negative then -(n : Int) else n)

/-- The bits of the number in format `fmt` rounded to an integral one, which keeps its sign and
is always representable. NaN and the infinities stay as they are. -/
def Format.roundIntegral (fmt : Format) (mode : Rounding) (bits : Nat) : Nat :=
  match fmt.value bits with
  | .finite negative m s =>
    if 0 ≤ s then bits else fmt.nearest negative (mode.apply m s) 0
  | _ => bits

/-- The bits in format `target` of the number that `bits` hold in format `fmt`. A NaN keeps the
leading bits of its payload and becomes quiet. -/
def Format.convert (fmt target : Format) (bits : Nat) : Nat :=
  let negative := bits / fmt.signBit % 2 == 1
  let sign := if negative then target.signBit else 0
  match fmt.value bits with
  | .nan =>
    let payload := bits % twoPow fmt.fraction * twoPow target.fraction / twoPow fmt.fraction
    sign + target.infinity + (payload ||| twoPow (target.fraction - 1))
  | .infinite _ => sign + target.infinity
  | .finite negative m s => target.nearest negative m s

/-- The bits in format `fmt` of the number nearest to the integer `n`. -/
def Format.ofInt (fmt : Format) (n : Int) : Nat :=
  fmt.nearest (n < 0) n.natAbs 0

end HotRegion.Ieee
