import HotRegion.CommandLine.Guest
import HotRegion.Engine

/-! # The program

Loads a guest, runs it and reports on it. -/

namespace HotRegion.CommandLine

open Isa Machine

/-- What the program leaves: its exit code and the text it writes. -/
structure Output where
  exitCode : UInt8
  out : String
  err : String
  deriving DecidableEq

/-- Why a run of the program fails. -/
inductive RunError where
  | noFile (path : String)
  /-- The input is there and cannot be read. -/
  | unreadable (path cause : String)
  | guest (error : GuestError)
  | config (error : ConfigError)
  | fault (fault : Fault)
  | crash (cause : Crash)
  deriving DecidableEq

namespace RunError

/-- The message of an error, and the message of its cause if it has one. -/
def message : RunError → String × Option String
  | noFile path => (s!"Input file `{path}` doesn't exist", none)
  | unreadable path cause => (s!"Failed to read from input file `{path}`", some cause)
  | guest (.notUtf8 error) => ("Hex listing isn't valid UTF-8", some error.message)
  | guest (.image error) => (error.message, none)
  | guest .empty => ("The program is empty", none)
  | guest (.badMemorySize size) =>
    (s!"Memory size {Text.hex size.toNat} must be a power of two of at most 4 GiB", none)
  | guest (.tooLong words size) =>
    (s!"A program of {words} words doesn't fit in {Text.hex size.toNat} bytes of memory", none)
  | config error => ("Invalid engine configuration", some error.message)
  | fault f => (s!"guest faulted: {f.message}", none)
  | crash cause => (cause.message, none)

/-- The error on standard error, after `out` on standard output. -/
def output (e : RunError) (out : String) : Output :=
  let (text, cause) := e.message
  let causes := match cause with
    | some c => s!"\nCaused by:\n    {c}\n"
    | none => ""
  ⟨1, out, s!"Error: {text}\n" ++ causes⟩

end RunError

/-! ### Reports -/

/-- A general register with its name. -/
def registerText (s : State) (r : Gpr) : String :=
  Text.padRight 5 r.name ++ " " ++ Text.hex8 (s.reg r).toNat

/-- Four registers from number `i` on. -/
def rowText (s : State) (i : Nat) : String :=
  "  ".intercalate ([i, i + 1, i + 2, i + 3].map fun n => registerText s (.ofNat n)) ++ "\n"

/-- The registers, four to a line. -/
def stateText (s : State) : String :=
  s!"pc   {Text.hex8 s.pc.toNat}  icnt {s.icnt}\n" ++
    String.join ([0, 4, 8, 12, 16, 20, 24, 28].map (rowText s)) ++
    s!"hi    {Text.hex8 s.hi.toNat}  lo    {Text.hex8 s.lo.toNat}\n"

def summaryText (s : Summary) : String :=
  s!"{s.blocks} blocks: {s.interpreted} interpreted, {s.invocations} region invocations\n"

/-- The report on a run. A guest that halts by a breakpoint or a system call ends well, every other
fault is a failure. -/
def report (r : HotRegion.Run) : Output :=
  match r.outcome with
  | .ok sum =>
    ⟨0, s!"stopped after {sum.blocks} blocks\n" ++ stateText r.state ++ summaryText sum ++
      s!"{r.engine.stats}\n", ""⟩
  | .error (.fault fault) =>
    if fault.isHalt then
      ⟨0, s!"halted: {fault.message}\n" ++ stateText r.state ++ s!"{r.engine.stats}\n", ""⟩
    else (RunError.fault fault).output (stateText r.state)
  | .error (.crash cause) => (RunError.crash cause).output ""

/-! ### Runs -/

/-- Runs the guest program in `bytes`. The program is loaded before the settings are checked;
compiled code may take `fuel` blocks of a function. -/
def execute (fuel : Nat) (opts : Options) (bytes : List UInt8) : Output :=
  match loadGuest opts bytes with
  | .error e => (RunError.guest e).output ""
  | .ok s =>
    match opts.settings.validate with
    | .error e => (RunError.config e).output ""
    | .ok config => report ((Engine.new config .eval).run fuel s opts.maxBlocks.toNat)

/-- Runs the program on its arguments. `read` gives the contents of an input. -/
def run {m : Type → Type} [Monad m] (fuel : Nat) (read : Input → m (Except RunError (List UInt8)))
    (args : List String) : m Output := do
  match Options.parse args with
  | .error e => return ⟨2, "", s!"error: {e.message}\n"⟩
  | .ok opts =>
    match ← read opts.input with
    | .error e => return e.output ""
    | .ok bytes => return execute fuel opts bytes

end HotRegion.CommandLine
