import HotRegion.Isa.Arithmetic

/-! # Control transfers

How an instruction, fetched from a given address, passes control on. Every transfer has a delay
slot: the instruction after it runs before control reaches the target, for a likely branch only if
the branch is taken. -/

namespace HotRegion.Isa

/-- Where control goes after an instruction. -/
inductive Control where
  /-- To the next instruction. -/
  | none
  /-- To one of two known addresses. -/
  | branch (taken notTaken : UInt32) (likely : Bool)
  /-- To a known address. -/
  | jump (target : UInt32)
  /-- To the address held in a register. -/
  | jumpReg
  deriving DecidableEq, Inhabited

namespace Control

/-- The statically known addresses at which control may continue. -/
def targets : Control → List UInt32
  | none | jumpReg => []
  | branch taken notTaken _ => [taken, notTaken]
  | jump target => [target]

def isTransfer : Control → Bool
  | none => false
  | _ => true

end Control

/-- Target of a branch at `addr` with the encoded `offset`. -/
def branchTarget (addr : UInt32) (offset : UInt16) : UInt32 :=
  addr + 4 + 4 * signExtend16 offset

/-- Target of a jump at `addr`: the upper four bits come from the address of the delay slot. -/
def jumpTarget (addr : UInt32) (index : Fin 0x4000000) : UInt32 :=
  4 * UInt32.ofNat index.val ||| ((addr + 4) &&& 0xf0000000)

/-- The index that a jump encodes for the absolute address `target`, of which only the low 28 bits
can be expressed. -/
def jumpIndex (target : UInt32) : Fin 0x4000000 := Fin.ofNat 0x4000000 (target.toNat / 4)

namespace Instr

/-- How the instruction, fetched from `addr`, transfers control. -/
def control (addr : UInt32) : Instr → Control
  | branch _ _ _ offset likely | branchZero _ _ offset likely | branchFp _ _ offset likely =>
    .branch (branchTarget addr offset) (addr + 8) likely
  | branchZeroLink _ _ offset => .branch (branchTarget addr offset) (addr + 8) false
  | jump index | jumpLink index => .jump (jumpTarget addr index)
  | jumpReg _ | jumpLinkReg .. => .jumpReg
  | _ => .none

/-- The next instruction is this instruction's delay slot. -/
def hasDelaySlot (insn : Instr) : Bool := (insn.control 0).isTransfer

/-- The instruction asks the environment for help instead of going on. -/
def isFault : Instr → Bool
  | syscall | breakpoint | trap .. | unknown _ => true
  | _ => false

/-- The delay slot only runs when the branch is taken. -/
def isLikelyBranch : Instr → Bool
  | branch _ _ _ _ likely | branchZero _ _ _ likely | branchFp _ _ _ likely => likely
  | _ => false

/-- Whether an instruction transfers control does not depend on its address. -/
theorem isTransfer_control (insn : Instr) (addr : UInt32) :
    (insn.control addr).isTransfer = insn.hasDelaySlot := by
  cases insn <;> rfl

/-- A likely branch is a branch whose control says so. -/
theorem isLikelyBranch_iff (insn : Instr) (addr : UInt32) :
    insn.isLikelyBranch = true ↔ ∃ taken notTaken, insn.control addr = .branch taken notTaken true := by
  cases insn <;> simp [isLikelyBranch, control]

/-- Only the two jumps transfer control to an address that they encode themselves. -/
theorem control_eq_jump_iff {insn : Instr} {addr target : UInt32} :
    insn.control addr = .jump target ↔
      ∃ index, (insn = jump index ∨ insn = jumpLink index) ∧ target = jumpTarget addr index := by
  cases insn <;> simp [control, eq_comm]

/-- Only the two register jumps transfer control to the address in a register. -/
theorem control_eq_jumpReg_iff {insn : Instr} {addr : UInt32} :
    insn.control addr = .jumpReg ↔ ∃ rs, insn = jumpReg rs ∨ ∃ rd, insn = jumpLinkReg rd rs := by
  cases insn <;> simp [control]

end Instr

end HotRegion.Isa
