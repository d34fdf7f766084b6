/-! # Reading numerals

Unsigned numerals as addresses, words and counts are written: ASCII digits of a base, with an
optional plus sign in front and any number of leading zeros. -/

namespace HotRegion.Text

/-- The value of an ASCII letter or digit as a digit of the given base. -/
def digit? (base : Nat) (c : Char) : Option Nat :=
  let value :=
    if '0' ≤ c ∧ c ≤ '9' then c.toNat - '0'.toNat
    else if 'a' ≤ c ∧ c ≤ 'z' then c.toNat - 'a'.toNat + 10
    else if 'A' ≤ c ∧ c ≤ 'Z' then c.toNat - 'A'.toNat + 10
    else base
  if value < base then some value else none

/-- The value of a sequence of digits, the most significant first. -/
def digitsValue? (base : Nat) (cs : List Char) : Option Nat :=
  cs.foldlM (fun acc c => (digit? base c).map (acc * base + ·)) 0

/-- Reads a numeral in the given base whose value is below `bound`. -/
def numeral? (base bound : Nat) (cs : List Char) : Option Nat := do
  let digits := match cs with
    | '+' :: rest => rest
    | _ => cs
  if digits.isEmpty then none
  else
    let value ← digitsValue? base digits
    if value < bound then some value else none

/-- The characters after a hexadecimal mark `0x` or `0X`. -/
def afterHexMark? : List Char → Option (List Char)
  | '0' :: 'x' :: rest | '0' :: 'X' :: rest => some rest
  | _ => none

end HotRegion.Text
