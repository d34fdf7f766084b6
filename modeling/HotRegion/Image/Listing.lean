import HotRegion.Text.Blank
import HotRegion.Text.Numeral

/-! # Program images

A guest program comes as raw big-endian words or as a listing: hexadecimal words separated by white
space, with comments that run from `#` to the end of the line. -/

namespace HotRegion.Image

/-- Why an image cannot be read. -/
inductive ImageError where
  /-- A word of a listing, on the given line counted from one, is no 32-bit hexadecimal number. -/
  | badWord (line : Nat) (token : String)
  /-- A binary image of the given length ends within a word. -/
  | truncated (length : Nat)
  deriving DecidableEq

def ImageError.message : ImageError → String
  | badWord line token => s!"line {line}: `{token}` is not a 32-bit hex word"
  | truncated length => s!"binary image length {length} is not a multiple of 4"

/-- The value of one word of a listing, which may carry a hexadecimal mark. -/
def word? (token : List Char) : Option UInt32 :=
  (Text.numeral? 16 0x100000000 ((Text.afterHexMark? token).getD token)).map UInt32.ofNat

/-- The words on one line, or the first of its tokens that is none. -/
def lineWords (line : List Char) : Except (List Char) (List UInt32) :=
  (Text.blankSeparated (line.takeWhile (· != '#'))).mapM fun token =>
    match word? token with
    | some w => .ok w
    | none => .error token

/-- The words of the given lines, the first of which has number `n`. -/
def linesWords (n : Nat) : List (List Char) → Except ImageError (List UInt32)
  | [] => .ok []
  | line :: rest =>
    match lineWords line with
    | .error token => .error (.badWord n (String.ofList token))
    | .ok words => (linesWords (n + 1) rest).map (words ++ ·)

/-- Reads a listing. -/
def parseListing (text : String) : Except ImageError (List UInt32) :=
  linesWords 1 (Text.lines text.toList)

/-- Splits bytes into big-endian words; what is left over at the end is dropped. -/
def bigEndianWords : List UInt8 → List UInt32
  | a :: b :: c :: d :: rest =>
    (a.toUInt32 <<< 24 ||| b.toUInt32 <<< 16 ||| c.toUInt32 <<< 8 ||| d.toUInt32) ::
      bigEndianWords rest
  | _ => []

/-- Reads a raw image. -/
def parseBinary (bytes : List UInt8) : Except ImageError (List UInt32) :=
  if bytes.length % 4 = 0 then .ok (bigEndianWords bytes) else .error (.truncated bytes.length)

end HotRegion.Image
