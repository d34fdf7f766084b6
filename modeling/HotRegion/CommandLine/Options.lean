import HotRegion.Config
import HotRegion.Text.Numeral

/-! # Command-line options

The arguments of the program: options with and without a value, of which all but two may be given
once, and one input. `--name value` and `--name=value` mean the same, short options may be joined
in one argument, and all that follows `--` is input. -/

namespace HotRegion.CommandLine

/-- Where the guest program is read from. -/
inductive Input where
  | standard
  | file (path : String)
  deriving DecidableEq

def Input.ofText (text : String) : Input := if text = "-" then standard else file text

/-- How the guest program is encoded. -/
inductive Format where
  /-- Raw big-endian words. -/
  | bin
  /-- A listing of hexadecimal words. -/
  | hex
  deriving DecidableEq

def Format.ofText? : String → Option Format
  | "bin" => some bin
  | "hex" => some hex
  | _ => none

/-- A part of region compilation that can be switched off. -/
inductive Pass where
  | constFold
  | insnCount
  | blockSplit
  | indirectJumps
  | fp
  | mixedPrecision
  deriving DecidableEq

def Pass.ofText? : String → Option Pass
  | "const-fold" => some constFold
  | "insn-count" => some insnCount
  | "block-split" => some blockSplit
  | "indirect-jumps" => some indirectJumps
  | "fp" => some fp
  | "mixed-precision" => some mixedPrecision
  | _ => none

/-- The choices made by the arguments. -/
structure Options where
  input : Input := .standard
  /-- Without a choice the name of the input decides. -/
  format : Option Format := none
  /-- Where the program is loaded. -/
  base : UInt32 := 0x1000
  /-- Where execution starts, if not at `base`. -/
  entry : Option UInt32 := none
  /-- Bytes of guest memory. -/
  memSize : UInt64 := 0x100000
  maxBlocks : UInt64 := 10000000
  hotThreshold : Option UInt64 := none
  cacheLines : Option UInt64 := none
  noJit : Bool := false
  skips : List Pass := []
  dumpIr : Bool := false
  verbosity : Nat := 0
  deriving DecidableEq

/-! ### Values -/

/-- A count: a decimal number of 64 bits. -/
def count? (text : String) : Option UInt64 :=
  (Text.numeral? 10 0x10000000000000000 text.toList).map UInt64.ofNat

/-- A number of 64 bits, decimal or hexadecimal after a mark. Underscores are ignored. -/
def number? (text : String) : Option UInt64 :=
  let read := fun base (cs : List Char) =>
    (Text.numeral? base 0x10000000000000000 (cs.filter (· != '_'))).map UInt64.ofNat
  match Text.afterHexMark? text.toList with
  | some digits => read 16 digits
  | none => read 10 text.toList

/-- A number that is an address. -/
def addr? (text : String) : Option UInt32 :=
  (number? text).bind fun n => if n < 0x100000000 then some n.toUInt32 else none

/-! ### Reading arguments -/

/-- The options. -/
inductive Opt where
  | format
  | base
  | entry
  | memSize
  | maxBlocks
  | hotThreshold
  | cacheLines
  | noJit
  | skip
  | dumpIr
  | verbose
  deriving DecidableEq

namespace Opt

/-- The option with a long name. -/
def ofName? : String → Option Opt
  | "format" => some format
  | "base" => some base
  | "entry" => some entry
  | "mem-size" => some memSize
  | "max-blocks" => some maxBlocks
  | "hot-threshold" => some hotThreshold
  | "cache-lines" => some cacheLines
  | "no-jit" => some noJit
  | "skip" => some skip
  | "dump-ir" => some dumpIr
  | "verbose" => some verbose
  | _ => none

/-- The option with a short name. -/
def ofLetter? : Char → Option Opt
  | 'f' => some format
  | 'v' => some verbose
  | _ => none

def takesValue : Opt → Bool
  | noJit | dumpIr | verbose => false
  | _ => true

/-- The option may be given more than once. -/
def repeats : Opt → Bool
  | skip | verbose => true
  | _ => false

end Opt

/-- Why arguments are not accepted. -/
inductive UsageError where
  | unknownOption (text : String)
  | missingValue (text : String)
  | unexpectedValue (text : String)
  | badValue (text : String)
  | repeated (text : String)
  | secondInput (text : String)
  deriving DecidableEq

def UsageError.message : UsageError → String
  | unknownOption text => s!"unknown option {text}"
  | missingValue text => s!"{text} needs a value"
  | unexpectedValue text => s!"{text} takes no value"
  | badValue text => s!"{text} is not a value of this option"
  | repeated text => s!"{text} is given more than once"
  | secondInput text => s!"{text} is a second input"

/-- One option or input. -/
inductive Item where
  | option (o : Opt) (value : String)
  | input (text : String)

/-- The options in one argument, and the last one if its value has to follow. -/
abbrev Group := List Item × Option Opt

/-- An option by its long name, with the value after an equals sign if there is one. -/
def readLong (text : String) (name : List Char) : Except UsageError Group :=
  let value := name.dropWhile (· != '=')
  match Opt.ofName? (String.ofList (name.takeWhile (· != '='))) with
  | none => .error (.unknownOption text)
  | some o =>
    match o.takesValue, value with
    | true, [] => .ok ([], some o)
    | true, _ :: value => .ok ([.option o (String.ofList value)], none)
    | false, [] => .ok ([.option o ""], none)
    | false, _ :: _ => .error (.unexpectedValue text)

/-- Options by their short names. What follows an option that takes a value is its value, with or
without an equals sign. -/
def readShort (text : String) : List Char → Except UsageError Group
  | [] => .ok ([], none)
  | c :: rest =>
    match Opt.ofLetter? c with
    | none => .error (.unknownOption text)
    | some o =>
      if o.takesValue then
        match rest with
        | [] => .ok ([], some o)
        | '=' :: value => .ok ([.option o (String.ofList value)], none)
        | value => .ok ([.option o (String.ofList value)], none)
      else (readShort text rest).map fun (items, last) => (.option o "" :: items, last)

/-- The options in one argument, or none if it is a value. A dash alone is a value. -/
def readGroup? (text : String) : Option (Except UsageError Group) :=
  match text.toList with
  | ['-'] => none
  | '-' :: '-' :: name => some (readLong text name)
  | '-' :: letters => some (readShort text letters)
  | _ => none

/-- The options and inputs in a list of arguments. -/
def readItems : List String → Except UsageError (List Item)
  | [] => .ok []
  | arg :: rest =>
    if arg = "--" then .ok (rest.map .input)
    else
      match readGroup? arg with
      | none => (readItems rest).map (.input arg :: ·)
      | some (.error e) => .error e
      | some (.ok (items, none)) => (readItems rest).map (items ++ ·)
      | some (.ok (items, some o)) =>
        match rest with
        | [] => .error (.missingValue arg)
        | value :: rest =>
          if (readGroup? value).isSome then .error (.missingValue arg)
          else (readItems rest).map (items ++ .option o value :: ·)

/-! ### Taking options -/

namespace Options

/-- Takes one option with its value. -/
def set? (opts : Options) (o : Opt) (value : String) : Option Options :=
  match o with
  | .format => (Format.ofText? value).map fun f => { opts with format := some f }
  | .base => (addr? value).map fun a => { opts with base := a }
  | .entry => (addr? value).map fun a => { opts with entry := some a }
  | .memSize => (number? value).map fun n => { opts with memSize := n }
  | .maxBlocks => (count? value).map fun n => { opts with maxBlocks := n }
  | .hotThreshold => (count? value).map fun n => { opts with hotThreshold := some n }
  | .cacheLines => (count? value).map fun n => { opts with cacheLines := some n }
  | .noJit => some { opts with noJit := true }
  | .skip => (Pass.ofText? value).map fun p => { opts with skips := opts.skips ++ [p] }
  | .dumpIr => some { opts with dumpIr := true }
  | .verbose => some { opts with verbosity := opts.verbosity + 1 }

/-- Takes options and inputs in order, after the options `seen`; `open?` says that no input was
taken yet. -/
def takeItems (opts : Options) (seen : List Opt) (open? : Bool) :
    List Item → Except UsageError Options
  | [] => .ok opts
  | .input text :: rest =>
    if open? then { opts with input := .ofText text }.takeItems seen false rest
    else .error (.secondInput text)
  | .option o value :: rest =>
    if seen.contains o && !o.repeats then .error (.repeated value)
    else
      match opts.set? o value with
      | some opts => opts.takeItems (o :: seen) open? rest
      | none => .error (.badValue value)

/-- Reads the arguments of the program. -/
def parse (args : List String) : Except UsageError Options := do
  takeItems {} [] true (← readItems args)

/-- The settings of the engine. -/
def settings (opts : Options) : Settings :=
  let defaults : Settings := {}
  let on := fun p => !opts.skips.contains p
  { defaults with
    enableCompilation := !opts.noJit
    hotThreshold := opts.hotThreshold.getD defaults.hotThreshold
    cacheCapacity := (opts.cacheLines.map UInt64.toNat).getD defaults.cacheCapacity
    foldConstants := on .constFold
    countInstructions := on .insnCount
    splitBlocks := on .blockSplit
    allowIndirectJumps := on .indirectJumps
    allowFp := on .fp
    allowMixedPrecision := on .mixedPrecision
    dumpIr := opts.dumpIr }

end Options

end HotRegion.CommandLine
