import HotRegion.Isa.Register
import HotRegion.Text.Number

/-! # Instructions

`Instr` is a decoded guest instruction together with its assembler text. Branch offsets stay in
their encoded form, a signed count of instructions relative to the delay slot, and jump targets
stay 26-bit indices: the absolute target depends on where the instruction was fetched from. -/

namespace HotRegion.Isa

/-! ### Operation families -/

/-- Shifts of `rt`, by a constant or by a register. -/
inductive ShiftOp where
  | leftLogical
  | rightLogical
  | rightArithmetic
  deriving DecidableEq, Inhabited

instance : ToString ShiftOp where
  toString
    | .leftLogical => "sll"
    | .rightLogical => "srl"
    | .rightArithmetic => "sra"

/-- Three-register integer operations: `rd` is computed from `rs` and `rt`. -/
inductive AluOp where
  /-- Addition that faults on signed overflow. -/
  | addS
  /-- Wrapping addition. -/
  | addU
  /-- Subtraction that faults on signed overflow. -/
  | subS
  /-- Wrapping subtraction. -/
  | subU
  | and
  | or
  | nor
  | xor
  /-- `rt` shifted by the low five bits of `rs`. -/
  | shift (op : ShiftOp)
  /-- One if `rs` is less than `rt` as signed words, else zero. -/
  | setLtS
  /-- One if `rs` is less than `rt` as unsigned words, else zero. -/
  | setLtU
  /-- `rs` if `rt` is zero, else the old value of `rd`. -/
  | moveIfZero
  /-- `rs` if `rt` is not zero, else the old value of `rd`. -/
  | moveIfNotZero
  /-- Low word of the product. -/
  | mul
  deriving DecidableEq, Inhabited

namespace AluOp

/-- Conditional moves may leave `rd` alone, which makes its old value an input. -/
def readsDestination : AluOp → Bool
  | moveIfZero | moveIfNotZero => true
  | _ => false

instance : ToString AluOp where
  toString
    | addS => "add"
    | addU => "addu"
    | subS => "sub"
    | subU => "subu"
    | and => "and"
    | or => "or"
    | nor => "nor"
    | xor => "xor"
    | shift op => s!"{op}v"
    | setLtS => "slt"
    | setLtU => "sltu"
    | moveIfZero => "movz"
    | moveIfNotZero => "movn"
    | mul => "mul"

end AluOp

/-- Operations whose result goes to `$hi` and `$lo`. -/
inductive MulDivOp where
  /-- Signed division: quotient to `$lo`, remainder to `$hi`. -/
  | divS
  | divU
  /-- Signed multiplication: the 64-bit product split over `$hi` and `$lo`. -/
  | multS
  | multU
  deriving DecidableEq, Inhabited

instance : ToString MulDivOp where
  toString
    | .divS => "div"
    | .divU => "divu"
    | .multS => "mult"
    | .multU => "multu"

/-- Moves between a general register and `$hi` or `$lo`. -/
inductive HiLoMove where
  | fromHi
  | fromLo
  | toHi
  | toLo
  deriving DecidableEq, Inhabited

instance : ToString HiLoMove where
  toString
    | .fromHi => "mfhi"
    | .fromLo => "mflo"
    | .toHi => "mthi"
    | .toLo => "mtlo"

/-- Integer operations on one register. -/
inductive UnaryOp where
  | countLeadingZeros
  | signExtendByte
  | signExtendHalf
  deriving DecidableEq, Inhabited

instance : ToString UnaryOp where
  toString
    | .countLeadingZeros => "clz"
    | .signExtendByte => "seb"
    | .signExtendHalf => "seh"

/-- Integer operations on a register and a 16-bit immediate. -/
inductive ImmOp where
  /-- Addition of the sign-extended immediate that faults on signed overflow. -/
  | addS
  /-- Wrapping addition of the sign-extended immediate. -/
  | addU
  | and
  | or
  | xor
  | setLtS
  /-- The immediate is sign-extended, then compared unsigned. -/
  | setLtU
  deriving DecidableEq, Inhabited

instance : ToString ImmOp where
  toString
    | .addS => "addi"
    | .addU => "addiu"
    | .and => "andi"
    | .or => "ori"
    | .xor => "xori"
    | .setLtS => "slti"
    | .setLtU => "sltiu"

/-- Loads into a general register. -/
inductive LoadOp where
  | byteS
  | byteU
  | halfS
  | halfU
  | word
  deriving DecidableEq, Inhabited

instance : ToString LoadOp where
  toString
    | .byteS => "lb"
    | .byteU => "lbu"
    | .halfS => "lh"
    | .halfU => "lhu"
    | .word => "lw"

/-- Stores from a general register. -/
inductive StoreOp where
  | byte
  | half
  | word
  deriving DecidableEq, Inhabited

instance : ToString StoreOp where
  toString
    | .byte => "sb"
    | .half => "sh"
    | .word => "sw"

/-- Conditions of branches that compare two registers. -/
inductive BranchCond where
  | eq
  | ne
  deriving DecidableEq, Inhabited

instance : ToString BranchCond where
  toString
    | .eq => "eq"
    | .ne => "ne"

/-- Conditions of branches that compare a register with zero. -/
inductive ZeroCond where
  | ge
  | gt
  | le
  | lt
  deriving DecidableEq, Inhabited

instance : ToString ZeroCond where
  toString
    | .ge => "gez"
    | .gt => "gtz"
    | .le => "lez"
    | .lt => "ltz"

/-- Conditions of branches that also write the return address. -/
inductive LinkCond where
  | ge
  | lt
  deriving DecidableEq, Inhabited

/-- The comparison with zero that a linking branch makes. -/
def LinkCond.toZeroCond : LinkCond → ZeroCond
  | ge => .ge
  | lt => .lt

instance : ToString LinkCond where
  toString c := toString c.toZeroCond

/-- Conditions of trap instructions. -/
inductive TrapCond where
  | eq
  | ne
  | geS
  | geU
  | ltS
  | ltU
  deriving DecidableEq, Inhabited

instance : ToString TrapCond where
  toString
    | .eq => "eq"
    | .ne => "ne"
    | .geS => "ge"
    | .geU => "geu"
    | .ltS => "lt"
    | .ltU => "ltu"

/-- Floating-point arithmetic on two registers of one format. -/
inductive FpAluOp where
  | add
  | sub
  | mul
  | div
  deriving DecidableEq, Inhabited

instance : ToString FpAluOp where
  toString
    | .add => "add"
    | .sub => "sub"
    | .mul => "mul"
    | .div => "div"

/-- Floating-point operations on one register. -/
inductive FpUnaryOp where
  | abs (fmt : FpFormat)
  | neg (fmt : FpFormat)
  | sqrt (fmt : FpFormat)
  | move (fmt : FpFormat)
  /-- Conversion between two formats, which differ in every decoded instruction. -/
  | convert (target source : FpFormat)
  /-- The source holds a signed word. -/
  | fromWord (fmt : FpFormat)
  /-- Conversion to a signed word, rounding to the nearest with ties to even. -/
  | toWord (fmt : FpFormat)
  /-- Conversion to a signed word, rounding toward zero. -/
  | truncToWord (fmt : FpFormat)
  deriving DecidableEq, Inhabited

namespace FpUnaryOp

/-- The format at which the destination register is written. -/
def target : FpUnaryOp → FpFormat
  | abs fmt | neg fmt | sqrt fmt | move fmt | convert fmt _ | fromWord fmt => fmt
  | toWord _ | truncToWord _ => .single

/-- The format at which the source register is read. -/
def source : FpUnaryOp → FpFormat
  | abs fmt | neg fmt | sqrt fmt | move fmt | convert _ fmt | toWord fmt | truncToWord fmt => fmt
  | fromWord _ => .single

instance : ToString FpUnaryOp where
  toString
    | abs fmt => s!"abs.{fmt}"
    | neg fmt => s!"neg.{fmt}"
    | sqrt fmt => s!"sqrt.{fmt}"
    | move fmt => s!"mov.{fmt}"
    | convert target source => s!"cvt.{target}.{source}"
    | fromWord fmt => s!"cvt.{fmt}.w"
    | toWord fmt => s!"cvt.w.{fmt}"
    | truncToWord fmt => s!"trunc.w.{fmt}"

end FpUnaryOp

/-- One of the sixteen floating-point comparison predicates. The low three bits select which of
the outcomes unordered, equal and less make it true; the high bit only asks for a signal on NaN
operands, which has no effect here. -/
structure FpCond where
  bits : Fin 16
  deriving DecidableEq, Inhabited

namespace FpCond

/-- The predicate with the given encoding; only the low four bits count. -/
def ofNat (n : Nat) : FpCond := ⟨Fin.ofNat 16 n⟩

/-- The predicate holds when an operand is NaN. -/
def onUnordered (c : FpCond) : Bool := c.bits.val % 2 == 1

/-- The predicate holds of equal operands. -/
def onEqual (c : FpCond) : Bool := c.bits.val / 2 % 2 == 1

/-- The predicate holds when the first operand is less than the second. -/
def onLess (c : FpCond) : Bool := c.bits.val / 4 % 2 == 1

instance : ToString FpCond where
  toString c :=
    (#v["f", "un", "eq", "ueq", "olt", "ult", "ole", "ule",
      "sf", "ngle", "seq", "ngl", "lt", "nge", "le", "ngt"] : Vector String 16).get c.bits

end FpCond

/-! ### Instructions -/

/-- A decoded guest instruction. -/
inductive Instr where
  | nop
  | shift (op : ShiftOp) (rd rt : Gpr) (amount : Fin 32)
  | alu (op : AluOp) (rd rs rt : Gpr)
  | mulDiv (op : MulDivOp) (rs rt : Gpr)
  | hiLoMove (op : HiLoMove) (r : Gpr)
  | unary (op : UnaryOp) (rd src : Gpr)
  | imm (op : ImmOp) (rt rs : Gpr) (value : UInt16)
  /-- The immediate becomes the high half of `rt`, the low half is zero. -/
  | loadUpper (rt : Gpr) (value : UInt16)
  | load (op : LoadOp) (rt base : Gpr) (offset : UInt16)
  | store (op : StoreOp) (rt base : Gpr) (offset : UInt16)
  | branch (cond : BranchCond) (rs rt : Gpr) (offset : UInt16) (likely : Bool)
  | branchZero (cond : ZeroCond) (rs : Gpr) (offset : UInt16) (likely : Bool)
  | branchZeroLink (cond : LinkCond) (rs : Gpr) (offset : UInt16)
  /-- Taken if condition code `cc` equals `onTrue`. -/
  | branchFp (onTrue : Bool) (cc : Fin 8) (offset : UInt16) (likely : Bool)
  | jump (index : Fin 0x4000000)
  | jumpLink (index : Fin 0x4000000)
  | jumpReg (rs : Gpr)
  | jumpLinkReg (rd rs : Gpr)
  | fpAlu (op : FpAluOp) (fmt : FpFormat) (fd fs ft : Fpr)
  | fpUnary (op : FpUnaryOp) (fd fs : Fpr)
  /-- Compares `fs` with `ft` and stores the outcome in condition code `cc`. -/
  | fpCompare (cond : FpCond) (fmt : FpFormat) (cc : Fin 8) (fs ft : Fpr)
  | fpLoad (fmt : FpFormat) (ft : Fpr) (base : Gpr) (offset : UInt16)
  | fpStore (fmt : FpFormat) (ft : Fpr) (base : Gpr) (offset : UInt16)
  /-- Copies the bits of `fs` to `rt`. -/
  | moveFromFpu (rt : Gpr) (fs : Fpr)
  /-- Copies the word in `rt` to `fs`. -/
  | moveToFpu (rt : Gpr) (fs : Fpr)
  | moveFromFcr (rt : Gpr) (c : Fcr)
  | moveToFcr (rt : Gpr) (c : Fcr)
  | trap (cond : TrapCond) (rs rt : Gpr)
  | syscall
  | breakpoint
  | sync
  /-- A word that is no supported instruction. -/
  | unknown (word : UInt32)
  deriving DecidableEq, Inhabited

namespace Instr

/-- The suffix of a branch whose delay slot only runs when the branch is taken. -/
private def likelyMark (likely : Bool) : String := if likely then "l" else ""

/-- A 16-bit field read as a signed number. -/
private def signed (v : UInt16) : String := toString v.toInt16.toInt

private def memoryOperand (offset : UInt16) (base : Gpr) : String := s!"{signed offset}({base})"

/-- Assembler text, mnemonic and operands separated by a tab. -/
def text : Instr → String
  | nop => "nop"
  | shift op rd rt amount => s!"{op}\t{rd}, {rt}, {amount}"
  | alu (.shift op) rd rs rt => s!"{op}v\t{rd}, {rt}, {rs}"
  | alu op rd rs rt => s!"{op}\t{rd}, {rs}, {rt}"
  | mulDiv op rs rt => s!"{op}\t{rs}, {rt}"
  | hiLoMove op r => s!"{op}\t{r}"
  | unary op rd src => s!"{op}\t{rd}, {src}"
  | imm op rt rs value => s!"{op}\t{rt}, {rs}, {signed value}"
  | loadUpper rt value => s!"lui\t{rt}, {Text.hex value.toNat}"
  | load op rt base offset => s!"{op}\t{rt}, {memoryOperand offset base}"
  | store op rt base offset => s!"{op}\t{rt}, {memoryOperand offset base}"
  | branch cond rs rt offset likely => s!"b{cond}{likelyMark likely}\t{rs}, {rt}, {signed offset}"
  | branchZero cond rs offset likely => s!"b{cond}{likelyMark likely}\t{rs}, {signed offset}"
  | branchZeroLink cond rs offset => s!"b{cond}al\t{rs}, {signed offset}"
  | branchFp onTrue cc offset likely =>
    let outcome := if onTrue then "t" else "f"
    s!"bc1{outcome}{likelyMark likely}\t{cc}, {signed offset}"
  | jump index => s!"j\t{Text.hex (index.val * 4)}"
  | jumpLink index => s!"jal\t{Text.hex (index.val * 4)}"
  | jumpReg rs => s!"jr\t{rs}"
  | jumpLinkReg rd rs => s!"jalr\t{rd}, {rs}"
  | fpAlu op fmt fd fs ft => s!"{op}.{fmt}\t{fd}, {fs}, {ft}"
  | fpUnary op fd fs => s!"{op}\t{fd}, {fs}"
  | fpCompare cond fmt cc fs ft => s!"c.{cond}.{fmt}\t{cc}, {fs}, {ft}"
  | fpLoad .single ft base offset => s!"lwc1\t{ft}, {memoryOperand offset base}"
  | fpLoad .double ft base offset => s!"ldc1\t{ft}, {memoryOperand offset base}"
  | fpStore .single ft base offset => s!"swc1\t{ft}, {memoryOperand offset base}"
  | fpStore .double ft base offset => s!"sdc1\t{ft}, {memoryOperand offset base}"
  | moveFromFpu rt fs => s!"mfc1\t{rt}, {fs}"
  | moveToFpu rt fs => s!"mtc1\t{rt}, {fs}"
  | moveFromFcr rt c => s!"cfc1\t{rt}, {c}"
  | moveToFcr rt c => s!"ctc1\t{rt}, {c}"
  | trap cond rs rt => s!"t{cond}\t{rs}, {rt}"
  | syscall => "syscall"
  | breakpoint => "break"
  | sync => "sync"
  | unknown word => s!".word\t{Text.hex8 word.toNat}"

instance : ToString Instr := ⟨text⟩

end Instr

end HotRegion.Isa
