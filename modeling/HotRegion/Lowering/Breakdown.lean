import HotRegion.Region.Graph
import HotRegion.Ssa.Builder

/-! # Breakdowns

Ways in which building a region could break down half way. None of them is a property of guest
code: each stands for a rule between the analyses and the code generator that did not hold. -/

namespace HotRegion

open Isa

/-- A rule inside the region compiler that did not hold. -/
inductive Breakdown where
  /-- A step on the graph that the graph does not allow. -/
  | graph (error : Region.GraphError)
  /-- A step of the builder that names what the function does not have. -/
  | misuse (error : Ssa.Misuse)
  /-- A register without a value is read. -/
  | unloaded (reg : Region.Tracked)
  /-- An instruction without a lowering. -/
  | notLowerable (insn : Instr)
  /-- A control transfer at the end of its block, without its delay slot. -/
  | noDelaySlot (addr : UInt32)
  /-- A slot of the region without a block in the function. -/
  | noCode (slot : Region.Slot)
  /-- A walk deeper than the dominator tree can be. -/
  | tooDeep (slot : Region.Slot)
  deriving DecidableEq

def Breakdown.message : Breakdown → String
  | graph error => error.message
  | misuse error => error.message
  | unloaded reg => s!"{reg} read before it was loaded"
  | notLowerable insn => s!"{insn} can't be compiled"
  | noDelaySlot addr => s!"no delay slot after {Text.hex8 addr.toNat}"
  | noCode slot => s!"no code for slot {slot}"
  | tooDeep slot => s!"the dominator tree has no end at slot {slot}"

end HotRegion
