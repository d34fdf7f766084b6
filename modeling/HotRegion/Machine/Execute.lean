import HotRegion.Isa.Arithmetic
import HotRegion.Machine.Fault
import HotRegion.Machine.State

/-! # Executing one instruction

`execute` runs an instruction that does not transfer control. Control transfers are decided before
their delay slot runs, by `State.taken`, `State.target` and `State.link`. -/

namespace HotRegion.Machine

open Isa

namespace State

/-- The address a load or store accesses. -/
def effectiveAddr (s : State) (base : Gpr) (offset : UInt16) : UInt32 :=
  s.reg base + signExtend16 offset

/-- The word that a load of the given kind gets from `addr`. -/
def loadValue (s : State) (op : LoadOp) (addr : UInt32) : UInt32 :=
  match op with
  | .byteS => UnaryOp.signExtendByte.eval (s.mem.read addr .byte).toUInt32
  | .byteU => (s.mem.read addr .byte).toUInt32
  | .halfS => UnaryOp.signExtendHalf.eval (s.mem.read addr .half).toUInt32
  | .halfU => (s.mem.read addr .half).toUInt32
  | .word => s.mem.readWord addr

/-- The width of a store. -/
def storeWidth : StoreOp → Width
  | .byte => .byte
  | .half => .half
  | .word => .word

/-- What the datum in a register, read in format `fmt`, denotes. -/
def fpValue (s : State) (fmt : FpFormat) (r : Fpr) : Ieee.Value :=
  match fmt with
  | .single => Ieee.value32 (s.fprBits r)
  | .double => Ieee.value64 (s.pairBits r)

/-- Floating-point arithmetic on two registers. -/
def fpAlu (s : State) (op : FpAluOp) (fmt : FpFormat) (fd fs ft : Fpr) : State :=
  match fmt with
  | .single =>
    let a := s.fprBits fs
    let b := s.fprBits ft
    s.setFprBits fd <| match op with
      | .add => Ieee.add32 a b
      | .sub => Ieee.sub32 a b
      | .mul => Ieee.mul32 a b
      | .div => Ieee.div32 a b
  | .double =>
    let a := s.pairBits fs
    let b := s.pairBits ft
    s.setPairBits fd <| match op with
      | .add => Ieee.add64 a b
      | .sub => Ieee.sub64 a b
      | .mul => Ieee.mul64 a b
      | .div => Ieee.div64 a b

/-- Floating-point operations on one register. -/
def fpUnary (s : State) (op : FpUnaryOp) (fd fs : Fpr) : State :=
  match op with
  | .abs .single => s.setFprBits fd (Ieee.abs32 (s.fprBits fs))
  | .abs .double => s.setPairBits fd (Ieee.abs64 (s.pairBits fs))
  | .neg .single => s.setFprBits fd (Ieee.neg32 (s.fprBits fs))
  | .neg .double => s.setPairBits fd (Ieee.neg64 (s.pairBits fs))
  | .sqrt .single => s.setFprBits fd (Ieee.sqrt32 (s.fprBits fs))
  | .sqrt .double => s.setPairBits fd (Ieee.sqrt64 (s.pairBits fs))
  | .move .single => s.setFprBits fd (s.fprBits fs)
  | .move .double => s.setPairBits fd (s.pairBits fs)
  | .convert .single _ => s.setFprBits fd (Ieee.narrow (s.pairBits fs))
  | .convert .double _ => s.setPairBits fd (Ieee.widen (s.fprBits fs))
  | .fromWord .single => s.setFprBits fd (Ieee.ofInt32 (s.fprBits fs).toInt32.toInt)
  | .fromWord .double => s.setPairBits fd (Ieee.ofInt64 (s.fprBits fs).toInt32.toInt)
  | .toWord fmt => s.setFprBits fd (Ieee.toWord .nearestEven (s.fpValue fmt fs))
  | .truncToWord fmt => s.setFprBits fd (Ieee.toWord .towardZero (s.fpValue fmt fs))

end State

/-- Runs an instruction fetched from `addr` that does not transfer control. The program counter and
the instruction count are the caller's. An instruction that faults has changed nothing by then, so
a fault comes without a state: it is the one before. Transfers are decided by `State.taken` and its
siblings, and asking for one here is a panic; no caller does, and the state given is the one
before. -/
def execute (s : State) (addr : UInt32) (insn : Instr) : Except Fault State :=
  match insn with
  | .nop | .sync => .ok s
  | .shift op rd rt amount => .ok (s.setReg rd (op.eval (s.reg rt) (UInt32.ofNat amount.val)))
  | .alu op rd rs rt =>
    if op.overflows (s.reg rs) (s.reg rt) then .error (.overflow addr)
    else .ok (s.setReg rd (op.eval (s.reg rs) (s.reg rt) (s.reg rd)))
  | .mulDiv op rs rt =>
    let (hi, lo) := op.eval (s.reg rs) (s.reg rt)
    .ok { s with hi := hi, lo := lo }
  | .hiLoMove .fromHi r => .ok (s.setReg r s.hi)
  | .hiLoMove .fromLo r => .ok (s.setReg r s.lo)
  | .hiLoMove .toHi r => .ok { s with hi := s.reg r }
  | .hiLoMove .toLo r => .ok { s with lo := s.reg r }
  | .unary op rd src => .ok (s.setReg rd (op.eval (s.reg src)))
  | .imm op rt rs value =>
    if op.overflows (s.reg rs) value then .error (.overflow addr)
    else .ok (s.setReg rt (op.eval (s.reg rs) value))
  | .loadUpper rt value => .ok (s.setReg rt (upperWord value))
  | .load op rt base offset => .ok (s.setReg rt (s.loadValue op (s.effectiveAddr base offset)))
  | .store op rt base offset =>
    .ok { s with
      mem := s.mem.write (s.effectiveAddr base offset) (State.storeWidth op) (s.reg rt).toUInt64 }
  | .fpAlu op fmt fd fs ft => .ok (s.fpAlu op fmt fd fs ft)
  | .fpUnary op fd fs => .ok (s.fpUnary op fd fs)
  | .fpCompare cond fmt cc fs ft =>
    .ok (s.setConditionCode cc (cond.eval (s.fpValue fmt fs) (s.fpValue fmt ft)))
  | .fpLoad .single ft base offset =>
    .ok (s.setFprBits ft (s.mem.readWord (s.effectiveAddr base offset)))
  | .fpLoad .double ft base offset =>
    .ok (s.setPairBits ft (s.mem.read (s.effectiveAddr base offset) .double))
  | .fpStore .single ft base offset =>
    .ok { s with mem := s.mem.writeWord (s.effectiveAddr base offset) (s.fprBits ft) }
  | .fpStore .double ft base offset =>
    .ok { s with mem := s.mem.write (s.effectiveAddr base offset) .double (s.pairBits ft) }
  | .moveFromFpu rt fs => .ok (s.setReg rt (s.fprBits fs))
  | .moveToFpu rt fs => .ok (s.setFprBits fs (s.reg rt))
  | .moveFromFcr rt c => .ok (s.setReg rt (s.fcrBits c))
  | .moveToFcr rt c => .ok (s.setFcr c (s.reg rt))
  | .trap cond rs rt => if cond.eval (s.reg rs) (s.reg rt) then .error (.trap addr) else .ok s
  | .syscall => .error (.syscall addr)
  | .breakpoint => .error (.breakpoint addr)
  | .unknown word => .error (.unknown addr word)
  | .branch .. | .branchZero .. | .branchZeroLink .. | .branchFp .. | .jump _ | .jumpLink _
  | .jumpReg _ | .jumpLinkReg .. => .ok s

end HotRegion.Machine
