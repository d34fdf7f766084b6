import HotRegion.Isa.Register
import HotRegion.Machine.Memory

/-! # Guest state

The architectural state: program counter, register files, the count of retired instructions and
memory. A write to `$0` has no effect, a double occupies an even register and its odd partner. -/

namespace HotRegion.Machine

open Isa

/-- Complete architectural state of the guest. -/
structure State where
  pc : UInt32
  gpr : Vector UInt32 32
  hi : UInt32
  lo : UInt32
  /-- Raw words of the floating-point registers. -/
  fpr : Vector UInt32 32
  fcr : Vector UInt32 5
  /-- Number of retired instructions. -/
  icnt : UInt64
  mem : Memory

/-- A piece of guest state that code can read or write as a unit. Numbers beyond a register file
wrap around it. -/
inductive Loc where
  | gpr (n : UInt8)
  | hi
  | lo
  | fpr (n : UInt8)
  /-- Both words of the pair that a floating-point register belongs to. -/
  | fprPair (n : UInt8)
  /-- A coprocessor control register by its dense index. -/
  | fcr (n : UInt8)
  /-- The count of retired instructions. -/
  | icnt
  deriving DecidableEq, Inhabited

instance : ToString Loc where
  toString
    | .gpr n => s!"${n}"
    | .hi => "$hi"
    | .lo => "$lo"
    | .fpr n => s!"$f{n}"
    | .fprPair n => s!"$f{n}.d"
    | .fcr n => s!"$fcr[{n}]"
    | .icnt => "icnt"

namespace State

/-- The state that starts at `pc` with all registers zero. -/
def initial (mem : Memory) (pc : UInt32) : State where
  pc := pc
  gpr := Vector.replicate 32 0
  hi := 0
  lo := 0
  fpr := Vector.replicate 32 0
  fcr := Vector.replicate 5 0
  icnt := 0
  mem := mem

/-! ### Registers -/

def reg (s : State) (r : Gpr) : UInt32 := s.gpr.get r.num

/-- A write to `$0` has no effect. -/
def setReg (s : State) (r : Gpr) (v : UInt32) : State :=
  if r.isZero then s else { s with gpr := s.gpr.set r.num.val v r.num_lt }

def hiLo (s : State) : HiLo → UInt32
  | .hi => s.hi
  | .lo => s.lo

def setHiLo (s : State) (h : HiLo) (v : UInt32) : State :=
  match h with
  | .hi => { s with hi := v }
  | .lo => { s with lo := v }

def fprBits (s : State) (r : Fpr) : UInt32 := s.fpr.get r.num

def setFprBits (s : State) (r : Fpr) (v : UInt32) : State :=
  { s with fpr := s.fpr.set r.num.val v r.num_lt }

/-- Bits of the double held by the pair `r` belongs to; the even register is the low word. -/
def pairBits (s : State) (r : Fpr) : UInt64 :=
  (s.fprBits r.base.partner).toUInt64 <<< 32 ||| (s.fprBits r.base).toUInt64

def setPairBits (s : State) (r : Fpr) (v : UInt64) : State :=
  (s.setFprBits r.base v.toUInt32).setFprBits r.base.partner (v >>> 32).toUInt32

def fcrBits (s : State) (c : Fcr) : UInt32 := s.fcr.get c.index

def setFcr (s : State) (c : Fcr) (v : UInt32) : State :=
  { s with fcr := s.fcr.set c.index.val v c.index_lt }

/-- The bit of condition code `cc`. -/
def ccBit (cc : Fin 8) : UInt32 := 1 <<< UInt32.ofNat cc.val

/-- Condition code `cc`, as set by a floating-point comparison. -/
def conditionCode (s : State) (cc : Fin 8) : Bool := s.fcrBits .fccr &&& ccBit cc != 0

def setConditionCode (s : State) (cc : Fin 8) (v : Bool) : State :=
  let fccr := s.fcrBits .fccr
  s.setFcr .fccr (if v then fccr ||| ccBit cc else fccr &&& ~~~(ccBit cc))

/-! ### Locations -/

/-- The bits at a location, zero-extended. -/
def readLoc (s : State) : Loc → UInt64
  | .gpr n => (s.reg (.ofNat n.toNat)).toUInt64
  | .hi => s.hi.toUInt64
  | .lo => s.lo.toUInt64
  | .fpr n => (s.fprBits (.ofNat n.toNat)).toUInt64
  | .fprPair n => s.pairBits (.ofNat n.toNat)
  | .fcr n => (s.fcr.get ⟨n.toNat % 5, Nat.mod_lt _ (by decide)⟩).toUInt64
  | .icnt => s.icnt

/-- Replaces the bits at a location by the low bits of `v`. -/
def writeLoc (s : State) (loc : Loc) (v : UInt64) : State :=
  match loc with
  | .gpr n => s.setReg (.ofNat n.toNat) v.toUInt32
  | .hi => { s with hi := v.toUInt32 }
  | .lo => { s with lo := v.toUInt32 }
  | .fpr n => s.setFprBits (.ofNat n.toNat) v.toUInt32
  | .fprPair n => s.setPairBits (.ofNat n.toNat) v
  | .fcr n => { s with fcr := s.fcr.set (n.toNat % 5) v.toUInt32 (Nat.mod_lt _ (by decide)) }
  | .icnt => { s with icnt := v }

end State

end HotRegion.Machine
