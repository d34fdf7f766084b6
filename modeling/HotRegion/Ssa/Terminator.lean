import HotRegion.Ssa.Type

/-! # Ends of blocks

How control leaves a block of region code, and why it leaves the region. -/

namespace HotRegion.Ssa

/-- Why control left a region. -/
inductive ExitReason where
  /-- Past the end of a block that has no successor in the region. -/
  | fallthrough
  /-- A branch or jump to an address outside the region. -/
  | branchTarget
  /-- A register jump to an address where no block of the region starts. -/
  | indirectMiss
  /-- A likely branch that was not taken and whose fallthrough is not in the region. -/
  | likelyUntaken
  deriving DecidableEq, Inhabited

namespace ExitReason

def all : List ExitReason := [fallthrough, branchTarget, indirectMiss, likelyUntaken]

def index : ExitReason → Fin 4
  | fallthrough => 0
  | branchTarget => 1
  | indirectMiss => 2
  | likelyUntaken => 3

/-- The region could not follow control any further. An exit to a branch target is an ordinary
transfer to a known address outside the region. -/
def isDeopt : ExitReason → Bool
  | branchTarget => false
  | _ => true

instance : ToString ExitReason where
  toString
    | fallthrough => "fallthrough"
    | branchTarget => "branch-target"
    | indirectMiss => "indirect-miss"
    | likelyUntaken => "likely-untaken"

end ExitReason

/-- The end of a block. -/
inductive Terminator where
  | jump (target : BlockId)
  /-- Two ways on a truth value; the weights are relative likelihoods of the two ways. -/
  | branch (cond : Value) (ifTrue ifFalse : BlockId) (weights : Option (UInt32 × UInt32))
  /-- Leaves the region; the guest continues at `pc`. -/
  | exit (pc : Value) (reason : ExitReason)
  deriving DecidableEq, Inhabited

namespace Terminator

/-- The distinct blocks that control may go to. -/
def successors : Terminator → List BlockId
  | jump target => [target]
  | branch _ ifTrue ifFalse _ => if ifTrue = ifFalse then [ifTrue] else [ifTrue, ifFalse]
  | exit .. => []

def operands : Terminator → List Value
  | jump _ => []
  | branch cond .. => [cond]
  | exit pc _ => [pc]

def text : Terminator → String
  | jump target => s!"jump {target}"
  | branch cond ifTrue ifFalse none => s!"br {cond}, {ifTrue}, {ifFalse}"
  | branch cond ifTrue ifFalse (some (t, e)) =>
    s!"br {cond}, {ifTrue}, {ifFalse} !weights({t}, {e})"
  | exit pc reason => s!"exit {pc} ({reason})"

end Terminator

end HotRegion.Ssa
