import HotRegion.Analysis.Precision
import HotRegion.Ascending
import HotRegion.Ssa.Type

/-! # Tracked registers

The units of guest state that a region keeps in values while it runs: each is loaded once on entry,
merged where paths meet and written back on exit. A pair of floating-point registers kept as a
double is tracked as its even register alone. -/

namespace HotRegion.Region

open Isa Analysis
open Machine (Loc)
open Ssa (Ty)

/-- A register tracked through a region. -/
inductive Tracked where
  | gpr (r : Gpr)
  | hiLo (h : HiLo)
  | fpr (r : Fpr)
  | fcr (c : Fcr)
  /-- The count of retired instructions. -/
  | icnt
  deriving DecidableEq, Inhabited

namespace Tracked

/-- Position in the order in which registers are listed. -/
def key : Tracked → Nat
  | gpr r => r.num
  | hiLo h => 32 + h.index
  | fpr r => 34 + r.num
  | fcr c => 66 + c.index
  | icnt => 71

instance : ToString Tracked where
  toString
    | gpr r => toString r
    | hiLo h => toString h
    | fpr r => toString r
    | fcr c => toString c
    | icnt => "icnt"

/-- The type of the value kept for the register, given how the region uses its floating-point
registers. -/
def ty (fp : FpTouched) : Tracked → Ty
  | gpr _ | hiLo _ | fcr _ => .i32
  | fpr r =>
    match fp.form r with
    | .single => .f32
    | .double => .f64
    | .bits | .covered => .i32
  | icnt => .i64

/-- Where the register lives in the guest state. -/
def loc (fp : FpTouched) : Tracked → Loc
  | gpr r => .gpr (UInt8.ofNat r.num)
  | hiLo .hi => .hi
  | hiLo .lo => .lo
  | fpr r =>
    if fp.form r = .double then .fprPair (UInt8.ofNat r.num) else .fpr (UInt8.ofNat r.num)
  | fcr c => .fcr (UInt8.ofNat c.index)
  | icnt => .icnt

/-- The tracked registers that an access touches. `$0` is not tracked. -/
def ofRef (fp : FpTouched) : RegRef → List Tracked
  | .gpr r => if r.isZero then [] else [gpr r]
  | .hiLo h => [hiLo h]
  | .fcr c => [fcr c]
  | .fpr r .single => if fp.form r = .covered then [fpr r.base] else [fpr r]
  | .fpr r .double =>
    if fp.form r.base = .double then [fpr r.base] else [fpr r.base, fpr r.base.partner]

/-- Adds a register to an ascending list. -/
def insert (r : Tracked) (l : List Tracked) : List Tracked := Ascending.insert key r l

end Tracked

end HotRegion.Region
