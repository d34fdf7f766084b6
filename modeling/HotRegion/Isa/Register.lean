/-! # Guest registers

The register files of a 32-bit big-endian MIPS processor with a floating-point coprocessor: 32
general registers, the multiply/divide pair, 32 floating-point registers and five coprocessor
control registers. `RegRef` names one access to any of them. -/

namespace HotRegion.Isa

/-- Floating-point format of an operand: 32-bit single or 64-bit double. -/
inductive FpFormat where
  | single
  | double
  deriving DecidableEq, Inhabited

instance : ToString FpFormat where
  toString
    | .single => "s"
    | .double => "d"

/-! ### General registers -/

/-- A general register. `$0` reads as zero and ignores writes. -/
structure Gpr where
  num : Fin 32
  deriving DecidableEq, Inhabited

namespace Gpr

/-- The register with number `n`; only the low five bits of `n` count. -/
def ofNat (n : Nat) : Gpr := ⟨Fin.ofNat 32 n⟩

theorem num_lt (r : Gpr) : r.num.val < 32 := r.num.isLt

/-- The register that is always zero. -/
def zero : Gpr := ofNat 0

/-- The stack pointer `$29`. -/
def sp : Gpr := ofNat 29

/-- The return address register `$31`, written by linking jumps. -/
def ra : Gpr := ofNat 31

def isZero (r : Gpr) : Bool := r.num == 0

/-- All general registers in ascending order. -/
def all : List Gpr := (List.finRange 32).map Gpr.mk

/-- The conventional name of a register, such as `$t0` or `$sp`. -/
def name (r : Gpr) : String :=
  (#v["$zero", "$at", "$v0", "$v1", "$a0", "$a1", "$a2", "$a3",
    "$t0", "$t1", "$t2", "$t3", "$t4", "$t5", "$t6", "$t7",
    "$s0", "$s1", "$s2", "$s3", "$s4", "$s5", "$s6", "$s7",
    "$t8", "$t9", "$k0", "$k1", "$gp", "$sp", "$fp", "$ra"] : Vector String 32).get r.num

instance : ToString Gpr where
  toString r := s!"${r.num}"

end Gpr

/-! ### Floating-point registers -/

/-- A floating-point register. A double occupies an even register and the odd one after it, the
even register holding the low-order word. -/
structure Fpr where
  num : Fin 32
  deriving DecidableEq, Inhabited

namespace Fpr

/-- The register with number `n`; only the low five bits of `n` count. -/
def ofNat (n : Nat) : Fpr := ⟨Fin.ofNat 32 n⟩

theorem num_lt (r : Fpr) : r.num.val < 32 := r.num.isLt

/-- Only an even register names a double by its base. -/
def isEven (r : Fpr) : Bool := r.num.val % 2 == 0

/-- The even register of the pair `r` belongs to. -/
def base (r : Fpr) : Fpr := ofNat (r.num.val / 2 * 2)

/-- The other register of the pair `r` belongs to. -/
def partner (r : Fpr) : Fpr := if r.isEven then ofNat (r.num.val + 1) else ofNat (r.num.val - 1)

/-- All floating-point registers in ascending order. -/
def all : List Fpr := (List.finRange 32).map Fpr.mk

instance : ToString Fpr where
  toString r := s!"$f{r.num}"

end Fpr

/-! ### The multiply/divide pair -/

/-- The two result registers of multiplication and division. -/
inductive HiLo where
  | hi
  | lo
  deriving DecidableEq, Inhabited

namespace HiLo

def all : List HiLo := [hi, lo]

def index : HiLo → Fin 2
  | hi => 0
  | lo => 1

instance : ToString HiLo where
  toString
    | hi => "$hi"
    | lo => "$lo"

end HiLo

/-! ### Coprocessor control registers -/

/-- The five control registers of the floating-point coprocessor that guest code can reach.
Comparisons set, and conditional branches test, a bit of `fccr`. -/
inductive Fcr where
  /-- Implementation register. -/
  | fir
  /-- Control and status. -/
  | fcsr
  /-- Condition codes. -/
  | fccr
  /-- Exceptions. -/
  | fexr
  /-- Enables. -/
  | fenr
  deriving DecidableEq, Inhabited

namespace Fcr

def all : List Fcr := [fir, fcsr, fccr, fexr, fenr]

/-- The number by which instructions address the register. -/
def number : Fcr → Fin 32
  | fir => 0
  | fcsr => 31
  | fccr => 25
  | fexr => 26
  | fenr => 28

/-- The control register an instruction addresses by `n`, if it is one of the five. -/
def ofNumber? : Nat → Option Fcr
  | 0 => some fir
  | 31 => some fcsr
  | 25 => some fccr
  | 26 => some fexr
  | 28 => some fenr
  | _ => none

/-- Position of the register in the dense file of five. -/
def index : Fcr → Fin 5
  | fir => 0
  | fcsr => 1
  | fccr => 2
  | fexr => 3
  | fenr => 4

theorem index_lt (c : Fcr) : c.index.val < 5 := c.index.isLt

/-- A control register is told by its number. -/
theorem ofNumber?_number (c : Fcr) : ofNumber? c.number = some c := by
  cases c <;> rfl

instance : ToString Fcr where
  toString c := s!"$fcr{c.number}"

end Fcr

/-! ### Register references -/

/-- A register of any class, as read or written by an instruction. A double access to a
floating-point register covers the whole pair the register belongs to. -/
inductive RegRef where
  | gpr (r : Gpr)
  | hiLo (h : HiLo)
  | fpr (r : Fpr) (fmt : FpFormat)
  | fcr (c : Fcr)
  deriving DecidableEq

instance : ToString RegRef where
  toString
    | .gpr r => toString r
    | .hiLo h => toString h
    | .fpr r fmt => s!"{r}.{fmt}"
    | .fcr c => toString c

end HotRegion.Isa
