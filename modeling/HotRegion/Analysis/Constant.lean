import HotRegion.Isa.Arithmetic
import HotRegion.Isa.Operands
import HotRegion.Machine.Trace

/-! # Constant registers

What is known of each general register at a point of a program, and how an instruction changes it.
-/

namespace HotRegion.Analysis

open Isa

/-- What is known of a register. -/
inductive ConstValue where
  /-- Nothing flowed in yet. -/
  | uninit
  | constant (v : UInt32)
  /-- More than one value, or one computed at run time. -/
  | variant
  deriving DecidableEq, Inhabited

namespace ConstValue

def join : ConstValue → ConstValue → ConstValue
  | uninit, v | v, uninit => v
  | constant a, constant b => if a = b then constant a else variant
  | _, _ => variant

def constant? : ConstValue → Option UInt32
  | constant v => some v
  | _ => none

instance : ToString ConstValue where
  toString
    | uninit => "?"
    | constant v => Text.hex v.toNat
    | variant => "*"

end ConstValue

/-- What is known of the 32 general registers. `$0` is the constant zero from the start, and no
operation changes that. -/
structure ConstRegs where
  values : Vector ConstValue 32
  deriving DecidableEq

namespace ConstRegs

/-- All registers but `$0` have the given value. -/
def fill (v : ConstValue) : ConstRegs :=
  ⟨(Vector.replicate 32 v).set Gpr.zero.num.val (.constant 0) Gpr.zero.num_lt⟩

/-- Nothing is known of any register but `$0`. -/
def uninit : ConstRegs := fill .uninit

/-- Every register but `$0` holds a value of the run, as on entry to a region. -/
def variant : ConstRegs := fill .variant

def get (regs : ConstRegs) (r : Gpr) : ConstValue := regs.values.get r.num

def set (regs : ConstRegs) (r : Gpr) (v : ConstValue) : ConstRegs :=
  if r.isZero then regs else ⟨regs.values.set r.num.val v r.num_lt⟩

/-- The constant that a register is known to hold. -/
def constant? (regs : ConstRegs) (r : Gpr) : Option UInt32 := (regs.get r).constant?

/-- The registers known to hold a constant, `$0` included. -/
def known (regs : ConstRegs) : List (Gpr × UInt32) :=
  Gpr.all.filterMap fun r => (regs.constant? r).map (r, ·)

def join (regs other : ConstRegs) : ConstRegs := ⟨regs.values.zipWith ConstValue.join other.values⟩

instance : ToString ConstRegs where
  toString regs :=
    let items := (regs.known.drop 1).map fun (r, v) => s!"{r} = {Text.hex v.toNat}"
    if items.isEmpty then "\x7b\x7d" else "\x7b " ++ ", ".intercalate items ++ " \x7d"

/-- The value that an instruction at `addr` writes to its general register, if all it reads is
constant. Loads and reads of `$hi`, `$lo` or the coprocessor are never constant; a linking transfer
writes its return address. -/
def fold (regs : ConstRegs) (addr : UInt32) : Instr → Option UInt32
  | .shift op _ rt amount => do return op.eval (← regs.constant? rt) (UInt32.ofNat amount.val)
  | .alu op rd rs rt => do
    let old ← if op.readsDestination then regs.constant? rd else some 0
    return op.eval (← regs.constant? rs) (← regs.constant? rt) old
  | .unary op _ src => do return op.eval (← regs.constant? src)
  | .imm op _ rs value => do return op.eval (← regs.constant? rs) value
  | .loadUpper _ value => some (upperWord value)
  | .jumpLink _ | .jumpLinkReg .. | .branchZeroLink .. => some (addr + 8)
  | _ => none

/-- The registers after an instruction at `addr`. -/
def update (regs : ConstRegs) (addr : UInt32) (insn : Instr) : ConstRegs :=
  let v := match regs.fold addr insn with
    | some v => ConstValue.constant v
    | none => .variant
  insn.effectiveDefs.foldl (fun regs ref =>
    match ref with
    | .gpr r => regs.set r v
    | _ => regs) regs

/-- The registers after consecutive instructions from `addr` on. -/
def run (regs : ConstRegs) (addr : UInt32) : List Instr → ConstRegs
  | [] => regs
  | insn :: rest => (regs.update addr insn).run (addr + 4) rest

end ConstRegs

end HotRegion.Analysis
