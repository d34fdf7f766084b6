/-! # Number text

The three ways numbers are written in listings, reports and messages: bare lower-case hexadecimal,
hexadecimal padded to the eight digits of a machine word, and right-aligned columns. -/

namespace HotRegion.Text

/-- `text` with `fill` put in front until it has at least `width` characters. -/
def padLeft (width : Nat) (fill : Char) (text : String) : String :=
  String.ofList (List.replicate (width - text.length) fill) ++ text

/-- `text` with blanks appended until it has at least `width` characters. -/
def padRight (width : Nat) (text : String) : String :=
  text ++ String.ofList (List.replicate (width - text.length) ' ')

/-- The lower-case hexadecimal digits of `n`, without leading zeros. -/
def hexDigits (n : Nat) : String :=
  String.ofList (Nat.toDigits 16 n)

/-- The hexadecimal digits of `n`, padded with zeros to at least eight. -/
def hexDigits8 (n : Nat) : String :=
  padLeft 8 '0' (hexDigits n)

/-- `n` in hexadecimal with the mark `0x` in front. -/
def hex (n : Nat) : String :=
  "0x" ++ hexDigits n

/-- `n` as an eight-digit hexadecimal word with the mark `0x` in front. -/
def hex8 (n : Nat) : String :=
  "0x" ++ hexDigits8 n

end HotRegion.Text
