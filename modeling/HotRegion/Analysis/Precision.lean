import HotRegion.Isa.Operands

/-! # Floating-point usage

At which widths code touches each floating-point register, which decides how the register is kept
at the boundaries of a region, and how many instructions compute at which precision. -/

namespace HotRegion.Analysis

open Isa

/-- The widths at which a register is used. -/
inductive FpUsage where
  | unused
  | single
  | double
  | both
  deriving DecidableEq, Inhabited

def FpUsage.join : FpUsage → FpUsage → FpUsage
  | unused, u | u, unused => u
  | a, b => if a = b then a else both

/-- How a register is kept at the boundaries of a region: when it is loaded on entry, merged where
paths meet and written back on exit. -/
inductive FprForm where
  /-- A single. -/
  | single
  /-- A double that this even register holds together with its partner. -/
  | double
  /-- The odd half of a double, with no value of its own. -/
  | covered
  /-- The raw word, for a register used at both widths or only moved around. -/
  | bits
  deriving DecidableEq, Inhabited

/-- The usage of every floating-point register. -/
structure FpTouched where
  usage : Vector FpUsage 32
  deriving DecidableEq

namespace FpTouched

def none : FpTouched := ⟨Vector.replicate 32 .unused⟩

def get (t : FpTouched) (r : Fpr) : FpUsage := t.usage.get r.num

/-- Adds one use of a register. -/
def joinAt (t : FpTouched) (r : Fpr) (u : FpUsage) : FpTouched :=
  ⟨t.usage.set r.num.val ((t.get r).join u) r.num_lt⟩

/-- Records an access; a double access covers both registers of the pair. -/
def touch (t : FpTouched) (r : Fpr) : FpFormat → FpTouched
  | .single => t.joinAt r .single
  | .double => (t.joinAt r.base .double).joinAt r.base.partner .double

def merge (t other : FpTouched) : FpTouched := ⟨t.usage.zipWith FpUsage.join other.usage⟩

def isUnused (t : FpTouched) : Bool := t.usage.all (· == .unused)

/-- The first register used at both widths. -/
def mixed (t : FpTouched) : Option Fpr := Fpr.all.find? (t.get · == .both)

/-- How register `r` is kept at region boundaries. -/
def form (t : FpTouched) (r : Fpr) : FprForm :=
  if t.get r.base = .double ∧ t.get r.base.partner = .double then
    if r = r.base then .double else .covered
  else if t.get r = .single then .single
  else .bits

/-- Records the floating-point registers among the given references. -/
def touchRefs (t : FpTouched) (refs : List RegRef) : FpTouched :=
  refs.foldl (fun t ref =>
    match ref with
    | .fpr r fmt => t.touch r fmt
    | _ => t) t

end FpTouched

/-- How many instructions compute at which precision. -/
structure PrecisionCounts where
  integer : Nat := 0
  single : Nat := 0
  double : Nat := 0
  deriving DecidableEq

namespace PrecisionCounts

def add (c : PrecisionCounts) : Precision → PrecisionCounts
  | .integer => { c with integer := c.integer + 1 }
  | .single => { c with single := c.single + 1 }
  | .double => { c with double := c.double + 1 }

def merge (c other : PrecisionCounts) : PrecisionCounts :=
  ⟨c.integer + other.integer, c.single + other.single, c.double + other.double⟩

def hasFp (c : PrecisionCounts) : Bool := 0 < c.single + c.double

/-- The counts of a list of instructions. -/
def ofInstrs (insns : List Instr) : PrecisionCounts :=
  insns.foldl (fun c insn => c.add insn.precision) {}

instance : ToString PrecisionCounts where
  toString c := s!"{c.integer} integer, {c.single} single, {c.double} double"

end PrecisionCounts

end HotRegion.Analysis
