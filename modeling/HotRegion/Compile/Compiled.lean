import HotRegion.Compile.Prepared
import HotRegion.Lowering.Function
import HotRegion.Ssa.Eval

/-! # Compiled regions

A back end takes the function of a prepared region or refuses it. What it takes can be run on a
guest state. -/

namespace HotRegion

open Machine (State)

/-- Code of a region: runs on a guest state, for at most the given number of blocks, and leaves the
program counter at the exit. -/
abbrev Code := Nat → State → Ssa.Outcome State

/-- What becomes of the function of a region. A back end may keep state of its own between two
functions; the two there are, `eval` and `null`, keep none, so `compile` is a function of its
argument. -/
structure Backend where
  name : String
  /-- Makes the code of a function or refuses it. -/
  compile : Ssa.Function → Except BackendError Code

namespace Backend

/-- A function as code: the evaluator runs it. -/
def evaluate (f : Ssa.Function) : Code := fun fuel s =>
  match Ssa.run fuel f s with
  | .exited e s => .exited e { s with pc := e.pc }
  | .stuck cause => .stuck cause
  | .outOfFuel => .outOfFuel

/-- Takes valid functions, which the evaluator runs. -/
def eval : Backend where
  name := "eval"
  compile f := do
    f.validate.mapError .invalid
    return evaluate f

/-- Refuses every function. -/
def null : Backend where
  name := "null"
  compile f := .error (.noGenerator f.name)

end Backend

/-- A region that can be run. -/
structure Compiled where
  info : Info
  code : Code

namespace Compiled

def entry (c : Compiled) : UInt32 := c.info.entry

/-- Runs a region on a guest state, for at most `fuel` blocks of its function. The program counter
ends at the exit. -/
def invoke (fuel : Nat) (c : Compiled) (s : State) : Ssa.Outcome State := c.code fuel s

end Compiled

/-- The function of a prepared region. -/
def Prepared.generate (config : Config) (p : Prepared) : Except Failure Ssa.Function :=
  (Lowering.generate p.region p.usage config).mapError .broken

/-- Builds the region entered at `entry` from a profile. -/
def compile (config : Config) (backend : Backend) (profile : Profile) (entry : UInt32) :
    Except Failure Compiled := do
  let p ← prepare config profile entry
  let f ← p.generate config
  match backend.compile f with
  | .ok code => return ⟨p.info, code⟩
  | .error e => throw (.refused (.backend e))

/-- How far building a region has come. -/
inductive Stage where
  | discovering
  | prepared
  | generated
  | ready
  | failed
  deriving DecidableEq

namespace Stage

instance : ToString Stage where
  toString
    | discovering => "discovering"
    | prepared => "constant and precision propagation"
    | generated => "code generation"
    | ready => "ready"
    | failed => "failed"

/-- The stage after a step: the one it leads to, if it succeeds. -/
def after {ε α : Type} (next : Stage) : Except ε α → Stage
  | .ok _ => next
  | .error _ => failed

end Stage

end HotRegion
