import HotRegion.Ieee.Arithmetic
import HotRegion.Isa.Instruction

/-! # Integer and comparison semantics

What each operation computes on words. The executor runs these functions and the constant analysis
folds with them, so both agree by construction. -/

namespace HotRegion.Isa

/-- The 16-bit immediate `v` as a signed word. -/
def signExtend16 (v : UInt16) : UInt32 := v.toInt16.toInt32.toUInt32

/-- Quotient and remainder of signed division, which truncates toward zero. Dividing by zero gives
a zero quotient and leaves the dividend as remainder; the one quotient that does not fit wraps. -/
def divS (rs rt : UInt32) : UInt32 × UInt32 :=
  if rt = 0 then (0, rs)
  else ((rs.toInt32 / rt.toInt32).toUInt32, (rs.toInt32 % rt.toInt32).toUInt32)

/-- Quotient and remainder of unsigned division, with the rule of `divS` for a zero divisor. -/
def divU (rs rt : UInt32) : UInt32 × UInt32 :=
  if rt = 0 then (0, rs) else (rs / rt, rs % rt)

/-- The sum of `a` and `b` as signed words does not fit a signed word. -/
def addOverflows (a b : UInt32) : Bool :=
  let sum := a.toInt32.toInt + b.toInt32.toInt
  sum < -0x80000000 || 0x7fffffff < sum

/-- The difference of `a` and `b` as signed words does not fit a signed word. -/
def subOverflows (a b : UInt32) : Bool :=
  let difference := a.toInt32.toInt - b.toInt32.toInt
  difference < -0x80000000 || 0x7fffffff < difference

/-- `a` is less than `b` as signed words. -/
def lessS (a b : UInt32) : Bool := a.toInt32 < b.toInt32

/-- The word for a truth value: one or zero. -/
def wordOfBool (b : Bool) : UInt32 := if b then 1 else 0

/-- The high and the low word of a doubleword. -/
def splitDouble (v : UInt64) : UInt32 × UInt32 := ((v >>> 32).toUInt32, v.toUInt32)

/-- `rt` shifted by the low five bits of `amount`. -/
def ShiftOp.eval (op : ShiftOp) (rt amount : UInt32) : UInt32 :=
  match op with
  | leftLogical => rt <<< (amount &&& 0x1f)
  | rightLogical => rt >>> (amount &&& 0x1f)
  | rightArithmetic => (rt.toInt32 >>> (amount &&& 0x1f).toInt32).toUInt32

/-- The new value of the destination, whose old value is `rd`. The faulting operations wrap here:
the executor asks for overflow first. -/
def AluOp.eval (op : AluOp) (rs rt rd : UInt32) : UInt32 :=
  match op with
  | addS | addU => rs + rt
  | subS | subU => rs - rt
  | and => rs &&& rt
  | or => rs ||| rt
  | nor => ~~~(rs ||| rt)
  | xor => rs ^^^ rt
  | shift op => op.eval rt rs
  | setLtS => wordOfBool (lessS rs rt)
  | setLtU => wordOfBool (rs < rt)
  | moveIfZero => if rt = 0 then rs else rd
  | moveIfNotZero => if rt = 0 then rd else rs
  | mul => rs * rt

/-- The operation faults on these operands because its signed result does not fit. -/
def AluOp.overflows (op : AluOp) (rs rt : UInt32) : Bool :=
  match op with
  | addS => addOverflows rs rt
  | subS => subOverflows rs rt
  | _ => false

/-- The new values of `$hi` and `$lo`. -/
def MulDivOp.eval (op : MulDivOp) (rs rt : UInt32) : UInt32 × UInt32 :=
  match op with
  | multS => splitDouble (rs.toInt32.toInt64 * rt.toInt32.toInt64).toUInt64
  | multU => splitDouble (rs.toUInt64 * rt.toUInt64)
  | divS => (Isa.divS rs rt).swap
  | divU => (Isa.divU rs rt).swap

def UnaryOp.eval (op : UnaryOp) (v : UInt32) : UInt32 :=
  match op with
  | countLeadingZeros => if v = 0 then 32 else 31 - v.log2
  | signExtendByte => v.toInt32.toInt8.toInt32.toUInt32
  | signExtendHalf => v.toInt32.toInt16.toInt32.toUInt32

def ImmOp.eval (op : ImmOp) (rs : UInt32) (value : UInt16) : UInt32 :=
  match op with
  | addS | addU => rs + signExtend16 value
  | and => rs &&& value.toUInt32
  | or => rs ||| value.toUInt32
  | xor => rs ^^^ value.toUInt32
  | setLtS => wordOfBool (lessS rs (signExtend16 value))
  | setLtU => wordOfBool (rs < signExtend16 value)

/-- The operation faults on these operands because its signed result does not fit. -/
def ImmOp.overflows (op : ImmOp) (rs : UInt32) (value : UInt16) : Bool :=
  match op with
  | addS => addOverflows rs (signExtend16 value)
  | _ => false

/-- The word that an immediate gives as the high half of a register. -/
def upperWord (value : UInt16) : UInt32 := value.toUInt32 <<< 16

def BranchCond.eval (cond : BranchCond) (rs rt : UInt32) : Bool :=
  match cond with
  | eq => rs == rt
  | ne => rs != rt

def ZeroCond.eval (cond : ZeroCond) (rs : UInt32) : Bool :=
  match cond with
  | ge => 0 ≤ rs.toInt32
  | gt => 0 < rs.toInt32
  | le => rs.toInt32 ≤ 0
  | lt => rs.toInt32 < 0

def LinkCond.eval (cond : LinkCond) (rs : UInt32) : Bool := cond.toZeroCond.eval rs

def TrapCond.eval (cond : TrapCond) (rs rt : UInt32) : Bool :=
  match cond with
  | eq => rs == rt
  | ne => rs != rt
  | geS => !lessS rs rt
  | geU => rt ≤ rs
  | ltS => lessS rs rt
  | ltU => rs < rt

/-- Evaluates a comparison predicate on two floating-point data. -/
def FpCond.eval (cond : FpCond) (a b : Ieee.Value) : Bool :=
  match a.compare b with
  | none => cond.onUnordered
  | some .lt => cond.onLess
  | some .eq => cond.onEqual
  | some .gt => false

end HotRegion.Isa
