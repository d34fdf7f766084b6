import HotRegion.Lowering.RegTable
import HotRegion.Machine.Execute

/-! # Lowering instructions

The code for one guest instruction that does not transfer control, and the condition of a branch.
With constant folding, an instruction whose result is known becomes that constant. -/

namespace HotRegion.Lowering

open Isa Analysis Ssa Build
open Machine (State Width)

/-- A word as a constant. -/
def word (v : UInt32) : Build Value := const .i32 v.toUInt64

/-! ### Integer operations -/

def shiftOp : ShiftOp → BinOp
  | .leftLogical => .shl
  | .rightLogical => .lshr
  | .rightArithmetic => .ashr

/-- One or zero by a comparison. -/
def compareWord (cond : IntCC) (a b : Value) : Attempt Value := do
  cast .zext (← icmp cond a b) .i32

/-- `rs` if `rt` compares so with zero, else `rd`. -/
def moveIf (cond : IntCC) (rs rt rd : Value) : Attempt Value := do
  let zero ← word 0
  let moves ← icmp cond rt zero
  select moves rs rd

/-- The new value of the destination, whose old value is `rd`. The faulting operations have no
lowering. -/
def lowerAlu (op : AluOp) (rs rt rd : Value) : Option (Attempt Value) :=
  match op with
  | .addU => some (binary .add rs rt)
  | .subU => some (binary .sub rs rt)
  | .and => some (binary .and rs rt)
  | .or => some (binary .or rs rt)
  | .xor => some (binary .xor rs rt)
  | .nor => some do unary .not (← binary .or rs rt)
  | .shift op => some (binary (shiftOp op) rt rs)
  | .setLtS => some (compareWord .slt rs rt)
  | .setLtU => some (compareWord .ult rs rt)
  | .moveIfZero => some (moveIf .eq rs rt rd)
  | .moveIfNotZero => some (moveIf .ne rs rt rd)
  | .mul => some (binary .mul rs rt)
  | .addS | .subS => none

/-- The new values of `$hi` and `$lo` after a multiplication with operands extended by `ext`. -/
def lowerMult (ext : CastOp) (rs rt : Value) : Attempt (Value × Value) := do
  let a ← cast ext rs .i64
  let b ← cast ext rt .i64
  let product ← binary .mul a b
  let amount ← const .i64 32
  let high ← binary .lshr product amount
  let hi ← cast .trunc high .i32
  let lo ← cast .trunc product .i32
  return (hi, lo)

/-- The new values of `$hi` and `$lo` after a division. -/
def lowerDiv (quotient remainder : BinOp) (rs rt : Value) : Attempt (Value × Value) := do
  let lo ← binary quotient rs rt
  let hi ← binary remainder rs rt
  return (hi, lo)

def lowerMulDiv (op : MulDivOp) (rs rt : Value) : Attempt (Value × Value) :=
  match op with
  | .multS => lowerMult .sext rs rt
  | .multU => lowerMult .zext rs rt
  | .divS => lowerDiv .sdiv .srem rs rt
  | .divU => lowerDiv .udiv .urem rs rt

/-- The value with its low bits, all but the upper `drop`, extended by their sign. -/
def extendSign (drop : UInt32) (v : Value) : Attempt Value := do
  let amount ← word drop
  let shifted ← binary .shl v amount
  binary .ashr shifted amount

def lowerUnary (op : UnaryOp) (v : Value) : Attempt Value :=
  match op with
  | .countLeadingZeros => unary .clz v
  | .signExtendByte => extendSign 24 v
  | .signExtendHalf => extendSign 16 v

/-- The sign-extended immediate is emitted for every operation, the plain one where it is used. The
faulting operation has no lowering. -/
def lowerImm (op : ImmOp) (rs : Value) (value : UInt16) : Option (Attempt Value) :=
  let extended := word (signExtend16 value)
  let logic := fun (op : BinOp) => some do
    let _ ← extended
    binary op rs (← word value.toUInt32)
  match op with
  | .addU => some do binary .add rs (← extended)
  | .and => logic .and
  | .or => logic .or
  | .xor => logic .xor
  | .setLtS => some do compareWord .slt rs (← extended)
  | .setLtU => some do compareWord .ult rs (← extended)
  | .addS => none

/-! ### Memory -/

/-- The address a load or store accesses. -/
def lowerAddr (base : Value) (offset : UInt16) : Attempt Value := do
  binary .add base (← word (signExtend16 offset))

def loadWidth : LoadOp → Width
  | .byteS | .byteU => .byte
  | .halfS | .halfU => .half
  | .word => .word

def loadSigned : LoadOp → Bool
  | .byteS | .halfS => true
  | .byteU | .halfU | .word => false

/-! ### Floating-point operations -/

def fpTy : FpFormat → Ty
  | .single => .f32
  | .double => .f64

def fpAluOp : FpAluOp → BinOp
  | .add => .fadd
  | .sub => .fsub
  | .mul => .fmul
  | .div => .fdiv

/-- Replaces one condition code by the outcome of a comparison and keeps the others. -/
def lowerCompare (cond : FpCond) (cc : Fin 8) (a b fccr : Value) : Attempt Value := do
  let outcome ← fcmp ⟨cond.onUnordered, cond.onEqual, cond.onLess⟩ a b
  let outcome ← cast .zext outcome .i32
  let amount ← word (UInt32.ofNat cc.val)
  let bit ← binary .shl outcome amount
  let mask ← word (~~~(State.ccBit cc))
  let kept ← binary .and fccr mask
  binary .or kept bit

/-- A floating-point operation on one register. -/
def lowerFpUnary (t : RegTable) (op : FpUnaryOp) (fd fs : Fpr) : Emit RegTable := do
  match op with
  | .abs fmt => t.writeFp fmt fd (← unary .fabs (← t.readFp fmt fs))
  | .neg fmt => t.writeFp fmt fd (← unary .fneg (← t.readFp fmt fs))
  | .sqrt fmt => t.writeFp fmt fd (← unary .fsqrt (← t.readFp fmt fs))
  | .move fmt => t.writeFp fmt fd (← t.readFp fmt fs)
  | .convert .single source => t.writeSingle fd (← cast .fptrunc (← t.readFp source fs) .f32)
  | .convert .double source => return t.writeDouble fd (← cast .fpext (← t.readFp source fs) .f64)
  | .fromWord fmt => t.writeFp fmt fd (← cast .sitofp (← t.readBits fs) (fpTy fmt))
  | .toWord fmt =>
    let rounded ← unary .froundEven (← t.readFp fmt fs)
    t.writeBits fd (← cast .fptosi rounded .i32)
  | .truncToWord fmt => t.writeBits fd (← cast .fptosi (← t.readFp fmt fs) .i32)

/-! ### Instructions -/

/-- The code for an instruction whose result is not taken as known. -/
def lowerPlain (t : RegTable) (insn : Instr) : Emit RegTable := do
  let unknown := fun (r : Gpr) (v : Value) => t.setGpr r v .variant
  match insn with
  | .nop | .sync => return t
  | .shift op rd rt amount =>
    let amount ← word (UInt32.ofNat amount.val)
    return unknown rd (← binary (shiftOp op) (← t.getGpr rt) amount)
  | .alu op rd rs rt =>
    match lowerAlu op (← t.getGpr rs) (← t.getGpr rt) (← t.getGpr rd) with
    | some code => return unknown rd (← code)
    | none => throw (.notLowerable insn)
  | .mulDiv op rs rt =>
    let (hi, lo) ← lowerMulDiv op (← t.getGpr rs) (← t.getGpr rt)
    return (t.setHiLo .hi hi).setHiLo .lo lo
  | .hiLoMove .fromHi r => return unknown r (← t.getHiLo .hi)
  | .hiLoMove .fromLo r => return unknown r (← t.getHiLo .lo)
  | .hiLoMove .toHi r => return t.setHiLo .hi (← t.getGpr r)
  | .hiLoMove .toLo r => return t.setHiLo .lo (← t.getGpr r)
  | .unary op rd src => return unknown rd (← lowerUnary op (← t.getGpr src))
  | .imm op rt rs value =>
    match lowerImm op (← t.getGpr rs) value with
    | some code => return unknown rt (← code)
    | none => throw (.notLowerable insn)
  | .loadUpper rt value =>
    return t.setGpr rt (← word (upperWord value)) (.constant (upperWord value))
  | .load op rt base offset =>
    let addr ← lowerAddr (← t.getGpr base) offset
    return unknown rt (← load (loadWidth op) (loadSigned op) addr .i32)
  | .store op rt base offset =>
    let addr ← lowerAddr (← t.getGpr base) offset
    store (State.storeWidth op) addr (← t.getGpr rt)
    return t
  | .fpAlu op fmt fd fs ft =>
    let a ← t.readFp fmt fs
    let b ← t.readFp fmt ft
    t.writeFp fmt fd (← binary (fpAluOp op) a b)
  | .fpUnary op fd fs => lowerFpUnary t op fd fs
  | .fpCompare cond fmt cc fs ft =>
    let a ← t.readFp fmt fs
    let b ← t.readFp fmt ft
    return t.setFcr .fccr (← lowerCompare cond cc a b (← t.getFcr .fccr))
  | .fpLoad .single ft base offset =>
    let addr ← lowerAddr (← t.getGpr base) offset
    t.writeBits ft (← load .word false addr .i32)
  | .fpLoad .double ft base offset =>
    let addr ← lowerAddr (← t.getGpr base) offset
    let bits ← load .double false addr .i64
    return t.writeDouble ft (← cast .bitcast bits .f64)
  | .fpStore .single ft base offset =>
    let addr ← lowerAddr (← t.getGpr base) offset
    store .word addr (← t.readBits ft)
    return t
  | .fpStore .double ft base offset =>
    let addr ← lowerAddr (← t.getGpr base) offset
    let v ← t.readDouble ft
    store .double addr (← cast .bitcast v .i64)
    return t
  | .moveFromFpu rt fs => return unknown rt (← t.readBits fs)
  | .moveToFpu rt fs => t.writeBits fs (← t.getGpr rt)
  | .moveFromFcr rt c => return unknown rt (← t.getFcr c)
  | .moveToFcr rt c => return t.setFcr c (← t.getGpr rt)
  | .branch .. | .branchZero .. | .branchZeroLink .. | .branchFp .. | .jump _ | .jumpLink _
  | .jumpReg _ | .jumpLinkReg .. | .trap .. | .syscall | .breakpoint | .unknown _ =>
    throw (.notLowerable insn)

/-- Gives every general register that an instruction writes a known value. -/
def lowerKnown (t : RegTable) (insn : Instr) (v : UInt32) : Build RegTable :=
  insn.effectiveDefs.foldlM (fun t ref =>
    match ref with
    | .gpr r => return t.setGpr r (← word v) (.constant v)
    | _ => return t) t

/-- The code for an instruction at `addr` that does not transfer control. With `fold`, a result
that is known from the table becomes a constant. -/
def lower (fold : Bool) (t : RegTable) (addr : UInt32) (insn : Instr) : Emit RegTable :=
  match if fold then t.consts.fold addr insn else none with
  | some v => lowerKnown t insn v
  | none => lowerPlain t insn

def branchCC : BranchCond → IntCC
  | .eq => .eq
  | .ne => .ne

def zeroCC : ZeroCond → IntCC
  | .ge => .sge
  | .gt => .sgt
  | .le => .sle
  | .lt => .slt

/-- The truth value that decides a conditional branch. -/
def lowerCondition (t : RegTable) (insn : Instr) : Emit Value := do
  match insn with
  | .branch cond rs rt .. => icmp (branchCC cond) (← t.getGpr rs) (← t.getGpr rt)
  | .branchZero cond rs .. =>
    let zero ← word 0
    icmp (zeroCC cond) (← t.getGpr rs) zero
  | .branchFp onTrue cc .. =>
    let amount ← word (UInt32.ofNat cc.val)
    let shifted ← binary .lshr (← t.getFcr .fccr) amount
    let one ← word 1
    let bit ← binary .and shifted one
    let zero ← word 0
    icmp (if onTrue then .ne else .eq) bit zero
  | _ => throw (.notLowerable insn)

end HotRegion.Lowering
