import HotRegion.Machine.State

/-! # Values and types of region code

Values are carried as raw bits of at most 64 bits, floats in their binary encoding. A value and a
block of a function are named by their numbers. -/

namespace HotRegion.Ssa

open Machine (Loc)

/-! ### Amounts of shifts -/

/-- The number of bits above a value of the given width. A signed value is shifted up and back down
by it. -/
def spareBits (width : Nat) : UInt64 := 64 - UInt64.ofNat width

/-- The position of the sign of a value of the given width. -/
def signBit (width : Nat) : UInt64 := UInt64.ofNat width - 1

/-- The amount by which a value of the given width is shifted when it is to be shifted by `b`. -/
def shiftAmount (width : Nat) (b : UInt64) : UInt64 := b % UInt64.ofNat width

/-- The amounts of the shifts that make a mask. One of all 64 bits is made without a shift. -/
def maskShifts (width : Nat) : List UInt64 := if width = 64 then [] else [UInt64.ofNat width]

/-- The mask of the low bits of the given number: a one shifted up, less one. -/
def lowMask (width : Nat) : UInt64 :=
  match maskShifts width with
  | [] => 0xffffffffffffffff
  | amount :: _ => (1 <<< amount) - 1

/-! ### Types -/

/-- Type of a value. -/
inductive Ty where
  | i1
  | i32
  | i64
  | f32
  | f64
  deriving DecidableEq, Inhabited

namespace Ty

def all : List Ty := [i1, i32, i64, f32, f64]

def width : Ty → Nat
  | i1 => 1
  | i32 | f32 => 32
  | i64 | f64 => 64

def isInt : Ty → Bool
  | i1 | i32 | i64 => true
  | f32 | f64 => false

def isFloat (ty : Ty) : Bool := !ty.isInt

/-- The bits that a value of the type may have. -/
def mask (ty : Ty) : UInt64 := lowMask ty.width

instance : ToString Ty where
  toString
    | i1 => "i1"
    | i32 => "i32"
    | i64 => "i64"
    | f32 => "f32"
    | f64 => "f64"

/-- The type at which a location of the guest state is read and written. -/
def ofLoc : Loc → Ty
  | .fprPair _ | .icnt => i64
  | _ => i32

end Ty

/-! ### Names -/

/-- A value, defined by one instruction of its function. The program numbers values and blocks with 32
bits, which no function that fits into memory uses up. -/
structure Value where
  index : Nat
  deriving DecidableEq, Inhabited

instance : ToString Value where
  toString v := s!"v{v.index}"

/-- A block of a function. -/
structure BlockId where
  index : Nat
  deriving DecidableEq, Inhabited

instance : ToString BlockId where
  toString b := s!"block{b.index}"

end HotRegion.Ssa
