import HotRegion.Lowering.Breakdown
import HotRegion.Ssa.Validate

/-! # Why a region is not compiled -/

namespace HotRegion

open Isa

/-- Why the back end refuses the code of a region. -/
inductive BackendError where
  | invalid (error : Ssa.ValidationError)
  /-- The back end compiles nothing. -/
  | noGenerator (function : String)
  /-- A reason of its own. -/
  | other (reason : String)
  deriving DecidableEq

def BackendError.message : BackendError → String
  | invalid error => s!"backend can't compile the region: invalid region IR: {error.message}"
  | noGenerator function =>
    s!"backend can't compile the region: {function} has no code generator"
  | other reason => s!"backend can't compile the region: {reason}"

/-- Why a region is not compiled. Its entry stays interpreted. -/
inductive CompileError where
  /-- There is nothing to build from yet. -/
  | notProfiled (addr : UInt32)
  | unsupported (addr : UInt32) (insn : Instr)
  | indirectJumpsDisabled (addr : UInt32)
  | fpDisabled (addr : UInt32)
  | mixedPrecisionDisabled (reg : Fpr)
  | backend (error : BackendError)
  deriving DecidableEq

namespace CompileError

def message : CompileError → String
  | notProfiled addr => s!"no profiled block at {Text.hex8 addr.toNat}"
  | unsupported addr insn => s!"unsupported instruction `{insn}` at {Text.hex8 addr.toNat}"
  | indirectJumpsDisabled addr =>
    s!"register jump at {Text.hex8 addr.toNat} with indirect jumps disabled"
  | fpDisabled addr =>
    s!"floating-point instruction at {Text.hex8 addr.toNat} with floating point disabled"
  | mixedPrecisionDisabled reg => s!"{reg} is used at single and double precision"
  | backend error => error.message

/-- The error goes away when the profile grows. -/
def isTransient : CompileError → Bool
  | notProfiled _ => true
  | _ => false

end CompileError

/-- How building a region fails. -/
inductive Failure where
  /-- The region is not one to compile. -/
  | refused (error : CompileError)
  /-- The compiler itself broke down. -/
  | broken (cause : Breakdown)
  deriving DecidableEq

end HotRegion
