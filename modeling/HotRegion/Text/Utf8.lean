/-! # UTF-8

Decoding of UTF-8 text, with the place and the kind of the first fault. -/

namespace HotRegion.Text

/-- The first fault of a byte sequence that is no UTF-8 text. -/
inductive Utf8Error where
  /-- From `index` on, the first `length` bytes begin no character. -/
  | invalid (index length : Nat)
  /-- From `index` on, the sequence ends within a character. -/
  | incomplete (index : Nat)
  deriving DecidableEq

def Utf8Error.message : Utf8Error → String
  | invalid index length => s!"invalid utf-8 sequence of {length} bytes from index {index}"
  | incomplete index => s!"incomplete utf-8 byte sequence from index {index}"

/-- What a lead byte announces: the number of bytes to follow, its own part of the code point, and
the least and greatest value of the byte after it. -/
structure Lead where
  follow : Nat
  code : Nat
  low : UInt8
  high : UInt8

/-- The meaning of a lead byte, if it is one. The bounds exclude codes that are too long, surrogates
and what lies beyond the last code point. -/
def lead? (b : UInt8) : Option Lead :=
  if b < 0x80 then some ⟨0, b.toNat, 0, 0⟩
  else if 0xc2 ≤ b && b ≤ 0xdf then some ⟨1, b.toNat - 0xc0, 0x80, 0xbf⟩
  else if b = 0xe0 then some ⟨2, 0, 0xa0, 0xbf⟩
  else if b = 0xed then some ⟨2, 0xd, 0x80, 0x9f⟩
  else if 0xe1 ≤ b && b ≤ 0xef then some ⟨2, b.toNat - 0xe0, 0x80, 0xbf⟩
  else if b = 0xf0 then some ⟨3, 0, 0x90, 0xbf⟩
  else if 0xf1 ≤ b && b ≤ 0xf3 then some ⟨3, b.toNat - 0xf0, 0x80, 0xbf⟩
  else if b = 0xf4 then some ⟨3, 4, 0x80, 0x8f⟩
  else none

/-- Reads `follow` more bytes of the character at `index`, of which `seen` bytes were read, the next
between `low` and `high`. Gives the code point and what comes after the character. -/
def decodeTail (index seen code : Nat) (low high : UInt8) :
    Nat → List UInt8 → Except Utf8Error (Nat × List UInt8)
  | 0, rest => .ok (code, rest)
  | _ + 1, [] => .error (.incomplete index)
  | follow + 1, b :: rest =>
    if low ≤ b && b ≤ high then
      decodeTail index (seen + 1) (code * 64 + b.toNat % 64) 0x80 0xbf follow rest
    else .error (.invalid index seen)

/-- Decodes bytes, the first of which has the given index; `fuel` bounds the count of characters. -/
def decodeFrom : Nat → Nat → List UInt8 → Except Utf8Error (List Char)
  | 0, _, _ | _, _, [] => .ok []
  | fuel + 1, index, b :: rest =>
    match lead? b with
    | none => .error (.invalid index 1)
    | some l =>
      match decodeTail index 1 l.code l.low l.high l.follow rest with
      | .error e => .error e
      | .ok (code, rest) => (decodeFrom fuel (index + l.follow + 1) rest).map (Char.ofNat code :: ·)

/-- Decodes UTF-8 text. -/
def decodeUtf8 (bytes : List UInt8) : Except Utf8Error String :=
  (decodeFrom bytes.length 0 bytes).map String.ofList

end HotRegion.Text
