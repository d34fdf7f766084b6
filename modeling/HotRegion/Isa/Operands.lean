import HotRegion.Isa.Instruction

/-! # Operands

Which registers an instruction reads and writes, at which precision it computes, and whether the
region compiler has a lowering for it. -/

namespace HotRegion.Isa

/-- The arithmetic an instruction performs. -/
inductive Precision where
  | integer
  | single
  | double
  deriving DecidableEq, Inhabited

namespace Precision

def ofFormat : FpFormat → Precision
  | .single => single
  | .double => double

def isFp : Precision → Bool
  | integer => false
  | _ => true

end Precision

namespace Instr

/-- The registers read, in operand order. -/
def uses : Instr → List RegRef
  | shift _ _ rt _ => [.gpr rt]
  | alu op rd rs rt => [.gpr rs, .gpr rt] ++ if op.readsDestination then [.gpr rd] else []
  | mulDiv _ rs rt | branch _ rs rt _ _ | trap _ rs rt => [.gpr rs, .gpr rt]
  | hiLoMove .fromHi _ => [.hiLo .hi]
  | hiLoMove .fromLo _ => [.hiLo .lo]
  | hiLoMove .toHi r | hiLoMove .toLo r => [.gpr r]
  | unary _ _ src => [.gpr src]
  | imm _ _ rs _ => [.gpr rs]
  | load _ _ base _ => [.gpr base]
  | store _ rt base _ => [.gpr base, .gpr rt]
  | branchZero _ rs _ _ | branchZeroLink _ rs _ | jumpReg rs | jumpLinkReg _ rs => [.gpr rs]
  | branchFp .. => [.fcr .fccr]
  | fpAlu _ fmt _ fs ft => [.fpr fs fmt, .fpr ft fmt]
  | fpUnary op _ fs => [.fpr fs op.source]
  -- Only one condition code is replaced, the others are kept.
  | fpCompare _ fmt _ fs ft => [.fpr fs fmt, .fpr ft fmt, .fcr .fccr]
  | fpLoad _ _ base _ => [.gpr base]
  | fpStore fmt ft base _ => [.gpr base, .fpr ft fmt]
  | moveFromFpu _ fs => [.fpr fs .single]
  | moveToFpu rt _ | moveToFcr rt _ => [.gpr rt]
  | moveFromFcr _ c => [.fcr c]
  | nop | loadUpper .. | jump _ | jumpLink _ | syscall | breakpoint | sync | unknown _ => []

/-- The registers written, a write to `$0` included. -/
def defs : Instr → List RegRef
  | shift _ rd _ _ | alu _ rd _ _ | unary _ rd _ => [.gpr rd]
  | mulDiv .. => [.hiLo .hi, .hiLo .lo]
  | hiLoMove .fromHi r | hiLoMove .fromLo r => [.gpr r]
  | hiLoMove .toHi _ => [.hiLo .hi]
  | hiLoMove .toLo _ => [.hiLo .lo]
  | imm _ rt _ _ | loadUpper rt _ | load _ rt _ _ => [.gpr rt]
  | moveFromFpu rt _ | moveFromFcr rt _ => [.gpr rt]
  | branchZeroLink .. | jumpLink _ => [.gpr .ra]
  | jumpLinkReg rd _ => [.gpr rd]
  | fpAlu _ fmt fd _ _ => [.fpr fd fmt]
  | fpUnary op fd _ => [.fpr fd op.target]
  | fpCompare .. => [.fcr .fccr]
  | fpLoad fmt ft _ _ => [.fpr ft fmt]
  | moveToFpu _ fs => [.fpr fs .single]
  | moveToFcr _ c => [.fcr c]
  | nop | store .. | fpStore .. | branch .. | branchZero .. | branchFp .. | jump _ | jumpReg _
  | trap .. | syscall | breakpoint | sync | unknown _ => []

/-- The registers really written: everything but `$0`. -/
def effectiveDefs (insn : Instr) : List RegRef :=
  insn.defs.filter (· != .gpr .zero)

/-- The widest precision the instruction computes at. -/
def precision : Instr → Precision
  | fpAlu _ fmt .. | fpCompare _ fmt .. | fpLoad fmt .. | fpStore fmt .. => .ofFormat fmt
  | fpUnary op .. => if op.target = .double ∨ op.source = .double then .double else .single
  | moveFromFpu .. | moveToFpu .. | moveFromFcr .. | moveToFcr .. | branchFp .. => .single
  | _ => .integer

def isFp (insn : Instr) : Bool := insn.precision.isFp

/-- The region compiler has a lowering for the instruction. One instruction without a lowering
makes its whole region uncompilable. -/
def canCompile : Instr → Bool
  | alu .addS .. | alu .subS .. | imm .addS .. | branchZeroLink .. | trap .. | syscall | breakpoint
  | unknown _ => false
  | _ => true

end Instr

end HotRegion.Isa
