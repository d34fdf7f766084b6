import HotRegion.CommandLine.Options
import HotRegion.Image.Listing
import HotRegion.Machine.State
import HotRegion.Text.Utf8

/-! # The initial guest

The guest program is read in its format and laid out in memory: the program at the load address, the
program counter at the entry and the stack pointer 16 bytes below the top of memory. -/

namespace HotRegion.CommandLine

open Machine Image

/-- Why there is no guest to run. -/
inductive GuestError where
  | notUtf8 (error : Text.Utf8Error)
  | image (error : ImageError)
  | empty
  | badMemorySize (size : UInt64)
  | tooLong (words : Nat) (size : UInt64)
  deriving DecidableEq

/-- The last part of a path that is neither empty nor a dot. -/
def fileName (path : String) : List Char :=
  let parts := (path.toList.splitOn '/').filter fun part => part != [] && part != ['.']
  parts.getLast?.getD []

/-- What follows the last dot of a name, if something stands before that dot. -/
def extension? (name : List Char) : Option (List Char) :=
  let reversed := name.reverse
  match reversed.dropWhile (· != '.') with
  | _ :: _ :: _ => if name = ['.', '.'] then none else some (reversed.takeWhile (· != '.')).reverse
  | _ => none

/-- The format of the program: the one chosen, or else a listing from standard input and from files
with a name for it, raw words from other files. -/
def Options.programFormat (opts : Options) : Format :=
  match opts.format, opts.input with
  | some f, _ => f
  | none, .standard => .hex
  | none, .file path =>
    if [some "hex".toList, some "txt".toList].contains (extension? (fileName path)) then .hex
    else .bin

/-- The words of the guest program. -/
def readProgram (format : Format) (bytes : List UInt8) : Except GuestError (List UInt32) :=
  match format with
  | .bin => (parseBinary bytes).mapError .image
  | .hex => do
    let text ← (Text.decodeUtf8 bytes).mapError .notUtf8
    (parseListing text).mapError .image

/-- The guest before its first instruction. -/
def layOut (opts : Options) (words : List UInt32) : Except GuestError State :=
  if words.isEmpty then .error .empty
  else
    match Memory.new opts.memSize.toNat with
    | .error _ => .error (.badMemorySize opts.memSize)
    | .ok mem =>
      if opts.memSize.toNat < 4 * words.length then .error (.tooLong words.length opts.memSize)
      else
        let start := State.initial (mem.loadWords opts.base words) (opts.entry.getD opts.base)
        .ok (start.setReg .sp (opts.memSize - 16).toUInt32)

/-- Reads and lays out the guest program. -/
def loadGuest (opts : Options) (bytes : List UInt8) : Except GuestError State := do
  layOut opts (← readProgram opts.programFormat bytes)

end HotRegion.CommandLine
