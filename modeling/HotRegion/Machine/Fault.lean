import HotRegion.Text.Number

/-! # Faults

The conditions that stop guest execution. -/

namespace HotRegion.Machine

/-- A condition that stops the guest at the instruction it names. -/
inductive Fault where
  | syscall (addr : UInt32)
  | breakpoint (addr : UInt32)
  | trap (addr : UInt32)
  | overflow (addr : UInt32)
  /-- A word that is no instruction, or a control transfer in a delay slot. -/
  | unknown (addr word : UInt32)
  deriving DecidableEq

namespace Fault

/-- Address of the faulting instruction. -/
def addr : Fault → UInt32
  | syscall addr | breakpoint addr | trap addr | overflow addr | unknown addr _ => addr

def message : Fault → String
  | syscall addr => s!"syscall at {Text.hex8 addr.toNat}"
  | breakpoint addr => s!"break at {Text.hex8 addr.toNat}"
  | trap addr => s!"trap at {Text.hex8 addr.toNat}"
  | overflow addr => s!"integer overflow at {Text.hex8 addr.toNat}"
  | unknown addr word => s!"can't execute {Text.hex8 word.toNat} at {Text.hex8 addr.toNat}"

/-- A program ends by a breakpoint or a system call; every other fault is an error. -/
def isHalt : Fault → Bool
  | syscall _ | breakpoint _ => true
  | _ => false

end Fault

end HotRegion.Machine
