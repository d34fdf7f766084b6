import HotRegion.Ieee.Format

/-! # Floating-point arithmetic on bits

Operations on single and double data given by their bits. Sign operations touch the sign bit alone
and so keep the payload of a NaN; comparisons, conversions and rounding are exact; the five rounded
operations are those of the hardware formats. -/

namespace HotRegion.Ieee

/-- What a 32-bit datum denotes. -/
def value32 (a : UInt32) : Value := Format.single.value a.toNat

/-- What a 64-bit datum denotes. -/
def value64 (a : UInt64) : Value := Format.double.value a.toNat

/-! ### Sign operations -/

def neg32 (a : UInt32) : UInt32 := a ^^^ 0x80000000

def abs32 (a : UInt32) : UInt32 := a &&& 0x7fffffff

def neg64 (a : UInt64) : UInt64 := a ^^^ 0x8000000000000000

def abs64 (a : UInt64) : UInt64 := a &&& 0x7fffffffffffffff

/-! ### Rounded operations -/

def add32 (a b : UInt32) : UInt32 := (Float32.ofBits a + Float32.ofBits b).toBits

def sub32 (a b : UInt32) : UInt32 := (Float32.ofBits a - Float32.ofBits b).toBits

def mul32 (a b : UInt32) : UInt32 := (Float32.ofBits a * Float32.ofBits b).toBits

def div32 (a b : UInt32) : UInt32 := (Float32.ofBits a / Float32.ofBits b).toBits

def sqrt32 (a : UInt32) : UInt32 := (Float32.ofBits a).sqrt.toBits

def add64 (a b : UInt64) : UInt64 := (Float.ofBits a + Float.ofBits b).toBits

def sub64 (a b : UInt64) : UInt64 := (Float.ofBits a - Float.ofBits b).toBits

def mul64 (a b : UInt64) : UInt64 := (Float.ofBits a * Float.ofBits b).toBits

def div64 (a b : UInt64) : UInt64 := (Float.ofBits a / Float.ofBits b).toBits

def sqrt64 (a : UInt64) : UInt64 := (Float.ofBits a).sqrt.toBits

/-! ### Conversions -/

/-- The double equal to a single. -/
def widen (a : UInt32) : UInt64 := UInt64.ofNat (Format.single.convert Format.double a.toNat)

/-- The single nearest to a double. -/
def narrow (a : UInt64) : UInt32 := UInt32.ofNat (Format.double.convert Format.single a.toNat)

def roundIntegral32 (mode : Rounding) (a : UInt32) : UInt32 :=
  UInt32.ofNat (Format.single.roundIntegral mode a.toNat)

def roundIntegral64 (mode : Rounding) (a : UInt64) : UInt64 :=
  UInt64.ofNat (Format.double.roundIntegral mode a.toNat)

/-- The single nearest to an integer. -/
def ofInt32 (n : Int) : UInt32 := UInt32.ofNat (Format.single.ofInt n)

/-- The double nearest to an integer. -/
def ofInt64 (n : Int) : UInt64 := UInt64.ofNat (Format.double.ofInt n)

/-- The low word of an integer in two's complement. -/
def wordOfInt (n : Int) : UInt32 := UInt32.ofNat (n % 0x100000000).toNat

/-- The signed word a datum rounds to. NaN and what does not fit give the largest word. -/
def toWord (mode : Rounding) (v : Value) : UInt32 :=
  match v.toInt? mode with
  | some n => if -0x80000000 ≤ n ∧ n ≤ 0x7fffffff then wordOfInt n else 0x7fffffff
  | none => 0x7fffffff

end HotRegion.Ieee
