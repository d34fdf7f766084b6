import HotRegion.Isa.Instruction

/-! # Decoding instruction words

`decode` reads a 32-bit instruction word. It never fails: a word outside the supported instruction
set is `Instr.unknown`. The fields of a word are read by division and remainder. -/

namespace HotRegion.Isa

/-! ### Fields of an instruction word -/

namespace Word

/-- Bits 26 to 31, the major operation code. -/
def opcode (w : UInt32) : Nat := w.toNat / 0x4000000

/-- Bits 0 to 5, the operation within a family. -/
def funct (w : UInt32) : Nat := w.toNat % 64

/-- Bits 21 to 25. -/
def rsField (w : UInt32) : Nat := w.toNat / 0x200000 % 32

/-- Bits 16 to 20. -/
def rtField (w : UInt32) : Nat := w.toNat / 0x10000 % 32

/-- Bits 11 to 15. -/
def rdField (w : UInt32) : Nat := w.toNat / 0x800 % 32

/-- Bits 6 to 10. -/
def saField (w : UInt32) : Nat := w.toNat / 64 % 32

def rs (w : UInt32) : Gpr := .ofNat (rsField w)

def rt (w : UInt32) : Gpr := .ofNat (rtField w)

def rd (w : UInt32) : Gpr := .ofNat (rdField w)

def ft (w : UInt32) : Fpr := .ofNat (rtField w)

def fs (w : UInt32) : Fpr := .ofNat (rdField w)

def fd (w : UInt32) : Fpr := .ofNat (saField w)

/-- The constant shift amount. -/
def amount (w : UInt32) : Fin 32 := ⟨saField w % 32, Nat.mod_lt _ (by decide)⟩

/-- The 16-bit immediate or offset. -/
def imm (w : UInt32) : UInt16 := w.toUInt16

/-- The 26-bit jump index. -/
def index (w : UInt32) : Fin 0x4000000 := ⟨w.toNat % 0x4000000, Nat.mod_lt _ (by decide)⟩

end Word

open Word

/-! ### Families -/

/-- Register operations, major code 0. -/
def decodeSpecial (w : UInt32) : Instr :=
  match funct w with
  | 0x00 => .shift .leftLogical (rd w) (rt w) (amount w)
  | 0x02 => .shift .rightLogical (rd w) (rt w) (amount w)
  | 0x03 => .shift .rightArithmetic (rd w) (rt w) (amount w)
  | 0x04 => .alu (.shift .leftLogical) (rd w) (rs w) (rt w)
  | 0x06 => .alu (.shift .rightLogical) (rd w) (rs w) (rt w)
  | 0x07 => .alu (.shift .rightArithmetic) (rd w) (rs w) (rt w)
  | 0x08 => .jumpReg (rs w)
  | 0x09 => .jumpLinkReg (rd w) (rs w)
  | 0x0a => .alu .moveIfZero (rd w) (rs w) (rt w)
  | 0x0b => .alu .moveIfNotZero (rd w) (rs w) (rt w)
  | 0x0c => .syscall
  | 0x0d => .breakpoint
  | 0x0f => .sync
  | 0x10 => .hiLoMove .fromHi (rd w)
  | 0x11 => .hiLoMove .toHi (rs w)
  | 0x12 => .hiLoMove .fromLo (rd w)
  | 0x13 => .hiLoMove .toLo (rs w)
  | 0x18 => .mulDiv .multS (rs w) (rt w)
  | 0x19 => .mulDiv .multU (rs w) (rt w)
  | 0x1a => .mulDiv .divS (rs w) (rt w)
  | 0x1b => .mulDiv .divU (rs w) (rt w)
  | 0x20 => .alu .addS (rd w) (rs w) (rt w)
  | 0x21 => .alu .addU (rd w) (rs w) (rt w)
  | 0x22 => .alu .subS (rd w) (rs w) (rt w)
  | 0x23 => .alu .subU (rd w) (rs w) (rt w)
  | 0x24 => .alu .and (rd w) (rs w) (rt w)
  | 0x25 => .alu .or (rd w) (rs w) (rt w)
  | 0x26 => .alu .xor (rd w) (rs w) (rt w)
  | 0x27 => .alu .nor (rd w) (rs w) (rt w)
  | 0x2a => .alu .setLtS (rd w) (rs w) (rt w)
  | 0x2b => .alu .setLtU (rd w) (rs w) (rt w)
  | 0x30 => .trap .geS (rs w) (rt w)
  | 0x31 => .trap .geU (rs w) (rt w)
  | 0x32 => .trap .ltS (rs w) (rt w)
  | 0x33 => .trap .ltU (rs w) (rt w)
  | 0x34 => .trap .eq (rs w) (rt w)
  | 0x36 => .trap .ne (rs w) (rt w)
  | _ => .unknown w

/-- Comparisons with zero that are told apart by the `rt` field, major code 1. -/
def decodeRegImm (w : UInt32) : Instr :=
  match rtField w with
  | 0x00 => .branchZero .lt (rs w) (imm w) false
  | 0x01 => .branchZero .ge (rs w) (imm w) false
  | 0x02 => .branchZero .lt (rs w) (imm w) true
  | 0x03 => .branchZero .ge (rs w) (imm w) true
  | 0x10 => .branchZeroLink .lt (rs w) (imm w)
  | 0x11 => .branchZeroLink .ge (rs w) (imm w)
  | _ => .unknown w

/-- Multiplication to a register and leading zeros, major code 0x1c. -/
def decodeSpecial2 (w : UInt32) : Instr :=
  match funct w with
  | 0x02 => .alu .mul (rd w) (rs w) (rt w)
  | 0x20 => .unary .countLeadingZeros (rd w) (rs w)
  | _ => .unknown w

/-- Sign extensions, major code 0x1f. -/
def decodeSpecial3 (w : UInt32) : Instr :=
  match funct w, saField w with
  | 0x20, 0x10 => .unary .signExtendByte (rd w) (rt w)
  | 0x20, 0x18 => .unary .signExtendHalf (rd w) (rt w)
  | _, _ => .unknown w

/-- Floating-point computation in format `fmt`. -/
def decodeFp (fmt : FpFormat) (w : UInt32) : Instr :=
  match funct w with
  | 0x00 => .fpAlu .add fmt (fd w) (fs w) (ft w)
  | 0x01 => .fpAlu .sub fmt (fd w) (fs w) (ft w)
  | 0x02 => .fpAlu .mul fmt (fd w) (fs w) (ft w)
  | 0x03 => .fpAlu .div fmt (fd w) (fs w) (ft w)
  | 0x04 => .fpUnary (.sqrt fmt) (fd w) (fs w)
  | 0x05 => .fpUnary (.abs fmt) (fd w) (fs w)
  | 0x06 => .fpUnary (.move fmt) (fd w) (fs w)
  | 0x07 => .fpUnary (.neg fmt) (fd w) (fs w)
  | 0x0d => .fpUnary (.truncToWord fmt) (fd w) (fs w)
  | 0x20 => if fmt = .double then .fpUnary (.convert .single .double) (fd w) (fs w) else .unknown w
  | 0x21 => if fmt = .single then .fpUnary (.convert .double .single) (fd w) (fs w) else .unknown w
  | 0x24 => .fpUnary (.toWord fmt) (fd w) (fs w)
  | code =>
    if 0x30 ≤ code then
      .fpCompare (.ofNat code) fmt (Fin.ofNat 8 (w.toNat / 0x100)) (fs w) (ft w)
    else .unknown w

/-- Conversions from a signed word. -/
def decodeFpWord (w : UInt32) : Instr :=
  match funct w with
  | 0x20 => .fpUnary (.fromWord .single) (fd w) (fs w)
  | 0x21 => .fpUnary (.fromWord .double) (fd w) (fs w)
  | _ => .unknown w

/-- The floating-point coprocessor, major code 0x11. -/
def decodeFpu (w : UInt32) : Instr :=
  match rsField w with
  | 0x00 => .moveFromFpu (rt w) (fs w)
  | 0x02 =>
    match Fcr.ofNumber? (rdField w) with
    | some c => .moveFromFcr (rt w) c
    | none => .unknown w
  | 0x04 => .moveToFpu (rt w) (fs w)
  | 0x06 =>
    match Fcr.ofNumber? (rdField w) with
    | some c => .moveToFcr (rt w) c
    | none => .unknown w
  | 0x08 =>
    .branchFp (w.toNat / 0x10000 % 2 == 1) (Fin.ofNat 8 (w.toNat / 0x40000)) (imm w)
      (w.toNat / 0x20000 % 2 == 1)
  | 0x10 => decodeFp .single w
  | 0x11 => decodeFp .double w
  | 0x14 => decodeFpWord w
  | _ => .unknown w

/-! ### Words -/

/-- Decodes an instruction word. -/
def decode (w : UInt32) : Instr :=
  if w = 0 then .nop
  else
    match opcode w with
    | 0x00 => decodeSpecial w
    | 0x01 => decodeRegImm w
    | 0x02 => .jump (index w)
    | 0x03 => .jumpLink (index w)
    | 0x04 => .branch .eq (rs w) (rt w) (imm w) false
    | 0x05 => .branch .ne (rs w) (rt w) (imm w) false
    | 0x06 => .branchZero .le (rs w) (imm w) false
    | 0x07 => .branchZero .gt (rs w) (imm w) false
    | 0x08 => .imm .addS (rt w) (rs w) (imm w)
    | 0x09 => .imm .addU (rt w) (rs w) (imm w)
    | 0x0a => .imm .setLtS (rt w) (rs w) (imm w)
    | 0x0b => .imm .setLtU (rt w) (rs w) (imm w)
    | 0x0c => .imm .and (rt w) (rs w) (imm w)
    | 0x0d => .imm .or (rt w) (rs w) (imm w)
    | 0x0e => .imm .xor (rt w) (rs w) (imm w)
    | 0x0f => .loadUpper (rt w) (imm w)
    | 0x11 => decodeFpu w
    | 0x14 => .branch .eq (rs w) (rt w) (imm w) true
    | 0x15 => .branch .ne (rs w) (rt w) (imm w) true
    | 0x16 => .branchZero .le (rs w) (imm w) true
    | 0x17 => .branchZero .gt (rs w) (imm w) true
    | 0x1c => decodeSpecial2 w
    | 0x1f => decodeSpecial3 w
    | 0x20 => .load .byteS (rt w) (rs w) (imm w)
    | 0x21 => .load .halfS (rt w) (rs w) (imm w)
    | 0x23 => .load .word (rt w) (rs w) (imm w)
    | 0x24 => .load .byteU (rt w) (rs w) (imm w)
    | 0x25 => .load .halfU (rt w) (rs w) (imm w)
    | 0x28 => .store .byte (rt w) (rs w) (imm w)
    | 0x29 => .store .half (rt w) (rs w) (imm w)
    | 0x2b => .store .word (rt w) (rs w) (imm w)
    | 0x31 => .fpLoad .single (ft w) (rs w) (imm w)
    | 0x35 => .fpLoad .double (ft w) (rs w) (imm w)
    | 0x39 => .fpStore .single (ft w) (rs w) (imm w)
    | 0x3d => .fpStore .double (ft w) (rs w) (imm w)
    | _ => .unknown w

end HotRegion.Isa
