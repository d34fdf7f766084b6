import HotRegion.Isa.Instruction

/-! # Encoding instructions

`Instr.encode` writes the instruction word of an instruction. Fields that an instruction does not
use are zero, except that a count of leading zeros repeats its destination in the `rt` field. -/

namespace HotRegion.Isa

/-- The word with the given fields, from the major code down to the low six bits. -/
def Word.ofFields (opcode rs rt rd sa funct : Nat) : UInt32 :=
  UInt32.ofNat
    (opcode * 0x4000000 + rs * 0x200000 + rt * 0x10000 + rd * 0x800 + sa * 64 + funct)

/-- The word with the given major code, two register fields and 16-bit immediate. -/
def Word.ofImmediate (opcode rs rt : Nat) (imm : UInt16) : UInt32 :=
  UInt32.ofNat (opcode * 0x4000000 + rs * 0x200000 + rt * 0x10000 + imm.toNat)

/-- The word of a floating-point computation in format `fmt`. -/
def Word.ofFp (fmt : FpFormat) (ft fs fd funct : Nat) : UInt32 :=
  let rs := match fmt with
    | .single => 0x10
    | .double => 0x11
  ofFields 0x11 rs ft fs fd funct

namespace ShiftOp

/-- Low six bits of a shift by a constant; a shift by a register adds four. -/
def funct : ShiftOp → Nat
  | leftLogical => 0x00
  | rightLogical => 0x02
  | rightArithmetic => 0x03

end ShiftOp

/-- The major code and the low six bits of a three-register operation. -/
def AluOp.code : AluOp → Nat × Nat
  | shift op => (0x00, op.funct + 4)
  | moveIfZero => (0x00, 0x0a)
  | moveIfNotZero => (0x00, 0x0b)
  | addS => (0x00, 0x20)
  | addU => (0x00, 0x21)
  | subS => (0x00, 0x22)
  | subU => (0x00, 0x23)
  | and => (0x00, 0x24)
  | or => (0x00, 0x25)
  | xor => (0x00, 0x26)
  | nor => (0x00, 0x27)
  | setLtS => (0x00, 0x2a)
  | setLtU => (0x00, 0x2b)
  | mul => (0x1c, 0x02)

def MulDivOp.funct : MulDivOp → Nat
  | multS => 0x18
  | multU => 0x19
  | divS => 0x1a
  | divU => 0x1b

def ImmOp.opcode : ImmOp → Nat
  | addS => 0x08
  | addU => 0x09
  | setLtS => 0x0a
  | setLtU => 0x0b
  | and => 0x0c
  | or => 0x0d
  | xor => 0x0e

def LoadOp.opcode : LoadOp → Nat
  | byteS => 0x20
  | halfS => 0x21
  | word => 0x23
  | byteU => 0x24
  | halfU => 0x25

def StoreOp.opcode : StoreOp → Nat
  | byte => 0x28
  | half => 0x29
  | word => 0x2b

def TrapCond.funct : TrapCond → Nat
  | geS => 0x30
  | geU => 0x31
  | ltS => 0x32
  | ltU => 0x33
  | eq => 0x34
  | ne => 0x36

def FpAluOp.funct : FpAluOp → Nat
  | add => 0x00
  | sub => 0x01
  | mul => 0x02
  | div => 0x03

/-- The word of a one-register floating-point operation. -/
def FpUnaryOp.encode (op : FpUnaryOp) (fd fs : Nat) : UInt32 :=
  match op with
  | sqrt fmt => Word.ofFp fmt 0 fs fd 0x04
  | abs fmt => Word.ofFp fmt 0 fs fd 0x05
  | move fmt => Word.ofFp fmt 0 fs fd 0x06
  | neg fmt => Word.ofFp fmt 0 fs fd 0x07
  | truncToWord fmt => Word.ofFp fmt 0 fs fd 0x0d
  | toWord fmt => Word.ofFp fmt 0 fs fd 0x24
  | convert .single source => Word.ofFp source 0 fs fd 0x20
  | convert .double source => Word.ofFp source 0 fs fd 0x21
  | fromWord .single => Word.ofFields 0x11 0x14 0 fs fd 0x20
  | fromWord .double => Word.ofFields 0x11 0x14 0 fs fd 0x21

namespace Instr

/-- The instruction word. -/
def encode : Instr → UInt32
  | nop => 0
  | shift op rd rt amount => Word.ofFields 0 0 rt.num rd.num amount op.funct
  | alu op rd rs rt => Word.ofFields op.code.1 rs.num rt.num rd.num 0 op.code.2
  | mulDiv op rs rt => Word.ofFields 0 rs.num rt.num 0 0 op.funct
  | hiLoMove .fromHi r => Word.ofFields 0 0 0 r.num 0 0x10
  | hiLoMove .toHi r => Word.ofFields 0 r.num 0 0 0 0x11
  | hiLoMove .fromLo r => Word.ofFields 0 0 0 r.num 0 0x12
  | hiLoMove .toLo r => Word.ofFields 0 r.num 0 0 0 0x13
  | unary .countLeadingZeros rd src => Word.ofFields 0x1c src.num rd.num rd.num 0 0x20
  | unary .signExtendByte rd src => Word.ofFields 0x1f 0 src.num rd.num 0x10 0x20
  | unary .signExtendHalf rd src => Word.ofFields 0x1f 0 src.num rd.num 0x18 0x20
  | imm op rt rs value => Word.ofImmediate op.opcode rs.num rt.num value
  | loadUpper rt value => Word.ofImmediate 0x0f 0 rt.num value
  | load op rt base offset => Word.ofImmediate op.opcode base.num rt.num offset
  | store op rt base offset => Word.ofImmediate op.opcode base.num rt.num offset
  | branch .eq rs rt offset false => Word.ofImmediate 0x04 rs.num rt.num offset
  | branch .ne rs rt offset false => Word.ofImmediate 0x05 rs.num rt.num offset
  | branch .eq rs rt offset true => Word.ofImmediate 0x14 rs.num rt.num offset
  | branch .ne rs rt offset true => Word.ofImmediate 0x15 rs.num rt.num offset
  | branchZero .le rs offset false => Word.ofImmediate 0x06 rs.num 0 offset
  | branchZero .gt rs offset false => Word.ofImmediate 0x07 rs.num 0 offset
  | branchZero .le rs offset true => Word.ofImmediate 0x16 rs.num 0 offset
  | branchZero .gt rs offset true => Word.ofImmediate 0x17 rs.num 0 offset
  | branchZero .lt rs offset false => Word.ofImmediate 0x01 rs.num 0x00 offset
  | branchZero .ge rs offset false => Word.ofImmediate 0x01 rs.num 0x01 offset
  | branchZero .lt rs offset true => Word.ofImmediate 0x01 rs.num 0x02 offset
  | branchZero .ge rs offset true => Word.ofImmediate 0x01 rs.num 0x03 offset
  | branchZeroLink .lt rs offset => Word.ofImmediate 0x01 rs.num 0x10 offset
  | branchZeroLink .ge rs offset => Word.ofImmediate 0x01 rs.num 0x11 offset
  | branchFp onTrue cc offset likely =>
    Word.ofImmediate 0x11 0x08 (cc.val * 4 + likely.toNat * 2 + onTrue.toNat) offset
  | jump index => UInt32.ofNat (0x02 * 0x4000000 + index.val)
  | jumpLink index => UInt32.ofNat (0x03 * 0x4000000 + index.val)
  | jumpReg rs => Word.ofFields 0 rs.num 0 0 0 0x08
  | jumpLinkReg rd rs => Word.ofFields 0 rs.num 0 rd.num 0 0x09
  | fpAlu op fmt fd fs ft => Word.ofFp fmt ft.num fs.num fd.num op.funct
  | fpUnary op fd fs => op.encode fd.num fs.num
  | fpCompare cond fmt cc fs ft => Word.ofFp fmt ft.num fs.num (cc.val * 4) (0x30 + cond.bits.val)
  | fpLoad .single ft base offset => Word.ofImmediate 0x31 base.num ft.num offset
  | fpLoad .double ft base offset => Word.ofImmediate 0x35 base.num ft.num offset
  | fpStore .single ft base offset => Word.ofImmediate 0x39 base.num ft.num offset
  | fpStore .double ft base offset => Word.ofImmediate 0x3d base.num ft.num offset
  | moveFromFpu rt fs => Word.ofFields 0x11 0x00 rt.num fs.num 0 0
  | moveToFpu rt fs => Word.ofFields 0x11 0x04 rt.num fs.num 0 0
  | moveFromFcr rt c => Word.ofFields 0x11 0x02 rt.num c.number 0 0
  | moveToFcr rt c => Word.ofFields 0x11 0x06 rt.num c.number 0 0
  | trap cond rs rt => Word.ofFields 0 rs.num rt.num 0 0 cond.funct
  | syscall => 0x0c
  | breakpoint => 0x0d
  | sync => 0x0f
  | unknown word => word

end Instr

/-- The instruction words of a sequence of instructions. -/
def assemble (insns : List Instr) : List UInt32 := insns.map Instr.encode

end HotRegion.Isa
