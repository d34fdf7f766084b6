import HotRegion.Ssa.Type
import HotRegion.Text.Number

/-! # Instructions of region code

The operations, their text, and which values each instruction defines and reads. -/

namespace HotRegion.Ssa

open Machine (Loc Width)

/-! ### Operations -/

/-- Operations on two values of one type. -/
inductive BinOp where
  | add
  | sub
  | mul
  | and
  | or
  | xor
  /-- Shifts take the amount modulo the width of the type. -/
  | shl
  | lshr
  | ashr
  /-- A quotient by zero is zero, and the one quotient that does not fit wraps. -/
  | udiv
  | sdiv
  /-- A remainder by zero is the dividend. -/
  | urem
  | srem
  | fadd
  | fsub
  | fmul
  | fdiv
  deriving DecidableEq, Inhabited

namespace BinOp

def all : List BinOp :=
  [add, sub, mul, and, or, xor, shl, lshr, ashr, udiv, sdiv, urem, srem, fadd, fsub, fmul, fdiv]

def isFloat : BinOp → Bool
  | fadd | fsub | fmul | fdiv => true
  | _ => false

instance : ToString BinOp where
  toString
    | add => "add"
    | sub => "sub"
    | mul => "mul"
    | and => "and"
    | or => "or"
    | xor => "xor"
    | shl => "shl"
    | lshr => "lshr"
    | ashr => "ashr"
    | udiv => "udiv"
    | sdiv => "sdiv"
    | urem => "urem"
    | srem => "srem"
    | fadd => "fadd"
    | fsub => "fsub"
    | fmul => "fmul"
    | fdiv => "fdiv"

end BinOp

/-- Operations on one value. -/
inductive UnOp where
  | not
  /-- Count of leading zeros. -/
  | clz
  | fneg
  | fabs
  | fsqrt
  /-- Rounds to the nearest integral number, ties to even. -/
  | froundEven
  deriving DecidableEq, Inhabited

namespace UnOp

def all : List UnOp := [not, clz, fneg, fabs, fsqrt, froundEven]

def isFloat : UnOp → Bool
  | not | clz => false
  | _ => true

instance : ToString UnOp where
  toString
    | not => "not"
    | clz => "clz"
    | fneg => "fneg"
    | fabs => "fabs"
    | fsqrt => "fsqrt"
    | froundEven => "froundeven"

end UnOp

/-- Integer comparisons. -/
inductive IntCC where
  | eq
  | ne
  | slt
  | sle
  | sgt
  | sge
  | ult
  | ule
  | ugt
  | uge
  deriving DecidableEq, Inhabited

namespace IntCC

def all : List IntCC := [eq, ne, slt, sle, sgt, sge, ult, ule, ugt, uge]

instance : ToString IntCC where
  toString
    | eq => "eq"
    | ne => "ne"
    | slt => "slt"
    | sle => "sle"
    | sgt => "sgt"
    | sge => "sge"
    | ult => "ult"
    | ule => "ule"
    | ugt => "ugt"
    | uge => "uge"

end IntCC

/-- Float comparisons: which of the outcomes unordered, equal and less make them true. -/
structure FloatCC where
  unordered : Bool
  equal : Bool
  less : Bool
  deriving DecidableEq, Inhabited

namespace FloatCC

def all : List FloatCC :=
  [⟨false, false, false⟩, ⟨true, false, false⟩, ⟨false, true, false⟩, ⟨true, true, false⟩,
    ⟨false, false, true⟩, ⟨true, false, true⟩, ⟨false, true, true⟩, ⟨true, true, true⟩]

instance : ToString FloatCC where
  toString
    | ⟨false, false, false⟩ => "false"
    | ⟨true, false, false⟩ => "uno"
    | ⟨false, true, false⟩ => "oeq"
    | ⟨true, true, false⟩ => "ueq"
    | ⟨false, false, true⟩ => "olt"
    | ⟨true, false, true⟩ => "ult"
    | ⟨false, true, true⟩ => "ole"
    | ⟨true, true, true⟩ => "ule"

end FloatCC

/-- Conversions to the type of the value they define. -/
inductive CastOp where
  | zext
  | sext
  | trunc
  /-- The same bits as an integer or a float of the same width. -/
  | bitcast
  /-- Signed integer to float, rounding to the nearest. -/
  | sitofp
  /-- Float to signed integer, rounding toward zero. NaN and what does not fit give the largest
  integer of the type. -/
  | fptosi
  | fpext
  | fptrunc
  deriving DecidableEq, Inhabited

namespace CastOp

def all : List CastOp := [zext, sext, trunc, bitcast, sitofp, fptosi, fpext, fptrunc]

instance : ToString CastOp where
  toString
    | zext => "zext"
    | sext => "sext"
    | trunc => "trunc"
    | bitcast => "bitcast"
    | sitofp => "sitofp"
    | fptosi => "fptosi"
    | fpext => "fpext"
    | fptrunc => "fptrunc"

end CastOp

/-! ### Instructions -/

/-- An instruction that does not end a block. The type of the value it defines is recorded in the
function. -/
inductive Inst where
  /-- Constant bits within the type of `dst`. -/
  | const (dst : Value) (bits : UInt64)
  | binary (dst : Value) (op : BinOp) (lhs rhs : Value)
  | unary (dst : Value) (op : UnOp) (src : Value)
  | icmp (dst : Value) (cond : IntCC) (lhs rhs : Value)
  | fcmp (dst : Value) (cond : FloatCC) (lhs rhs : Value)
  | select (dst cond ifTrue ifFalse : Value)
  | cast (dst : Value) (op : CastOp) (src : Value)
  /-- Memory load, extended to the type of `dst`. -/
  | load (dst : Value) (width : Width) (signed : Bool) (addr : Value)
  /-- Memory store of the low bits of `value`. -/
  | store (width : Width) (addr value : Value)
  | readGuest (dst : Value) (loc : Loc)
  | writeGuest (loc : Loc) (value : Value)
  /-- The value that belongs to the block control came from. Phis stand before all other
  instructions of their block. -/
  | phi (dst : Value) (incoming : List (BlockId × Value))
  deriving DecidableEq, Inhabited

namespace Inst

/-- The value that the instruction defines. -/
def dst? : Inst → Option Value
  | const dst .. | binary dst .. | unary dst .. | icmp dst .. | fcmp dst .. | select dst ..
  | cast dst .. | load dst .. | readGuest dst _ | phi dst _ => some dst
  | store .. | writeGuest .. => none

/-- The values that the instruction reads; those of a phi are its incoming values. -/
def operands : Inst → List Value
  | const .. | readGuest .. => []
  | binary _ _ lhs rhs | icmp _ _ lhs rhs | fcmp _ _ lhs rhs => [lhs, rhs]
  | unary _ _ src | cast _ _ src => [src]
  | select _ cond ifTrue ifFalse => [cond, ifTrue, ifFalse]
  | load _ _ _ addr => [addr]
  | store _ addr value => [addr, value]
  | writeGuest _ value => [value]
  | phi _ incoming => incoming.map (·.2)

def isPhi : Inst → Bool
  | phi .. => true
  | _ => false

/-- The instruction changes guest state or memory. -/
def hasSideEffects : Inst → Bool
  | store .. | writeGuest .. => true
  | _ => false

/-- The text of the instruction without the value it defines. -/
def text : Inst → String
  | const _ bits => s!"const {Text.hex bits.toNat}"
  | binary _ op lhs rhs => s!"{op} {lhs}, {rhs}"
  | unary _ op src => s!"{op} {src}"
  | icmp _ cond lhs rhs => s!"icmp {cond} {lhs}, {rhs}"
  | fcmp _ cond lhs rhs => s!"fcmp {cond} {lhs}, {rhs}"
  | select _ cond ifTrue ifFalse => s!"select {cond}, {ifTrue}, {ifFalse}"
  | cast _ op src => s!"{op} {src}"
  | load _ width signed addr =>
    let extension := if signed then "s" else "z"
    s!"load.{extension} {width} [{addr}]"
  | store width addr value => s!"store {width} {value}, [{addr}]"
  | readGuest _ loc => s!"read {loc}"
  | writeGuest loc value => s!"write {loc}, {value}"
  | phi _ incoming =>
    "phi " ++ ", ".intercalate (incoming.map fun (block, value) => s!"[{value}, {block}]")

end Inst

end HotRegion.Ssa
