/-! # Blank characters

The characters with the Unicode property `White_Space`, which separate the words of a listing. -/

namespace HotRegion.Text

/-- The character has the property `White_Space`. -/
def isBlank (c : Char) : Bool :=
  let n := c.toNat
  (0x9 ≤ n && n ≤ 0xd) || n == 0x20 || n == 0x85 || n == 0xa0 || n == 0x1680 ||
    (0x2000 ≤ n && n ≤ 0x200a) || n == 0x2028 || n == 0x2029 || n == 0x202f || n == 0x205f ||
    n == 0x3000

/-- Puts a finished run of characters in front of the later ones. An empty run is no run. -/
def consRun (run : List Char) (rest : List (List Char)) : List (List Char) :=
  if run.isEmpty then rest else run :: rest

/-- The maximal runs of characters that are not blank, in order. -/
def blankSeparated (cs : List Char) : List (List Char) :=
  let (run, rest) := cs.foldr
    (fun c (run, rest) => if isBlank c then ([], consRun run rest) else (c :: run, rest)) ([], [])
  consRun run rest

/-- The lines of a text. A line ends at a line feed, of which a carriage return right before it is
part; text after the last line feed is a line only if it is not empty. -/
def lines : List Char → List (List Char)
  | [] => []
  | '\n' :: cs => [] :: lines cs
  | '\r' :: '\n' :: cs => [] :: lines cs
  | c :: cs =>
    match lines cs with
    | line :: rest => (c :: line) :: rest
    | [] => [[c]]

end HotRegion.Text
