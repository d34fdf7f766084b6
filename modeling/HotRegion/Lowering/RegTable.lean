import HotRegion.Lowering.Breakdown
import HotRegion.Ssa.Builder

/-! # Register tables

While code is generated, a register table says which value holds each guest register, and what is
known of the general registers. A pair of floating-point registers is held as one double or as two
halves; reading it at another width emits the conversion, and writing one half of a double first
takes out the other half. -/

namespace HotRegion.Lowering

open Isa Analysis Ssa
open Region (Tracked)

/-- A computation that emits code. -/
abbrev Emit := StateT Builder (Except Breakdown)

instance : MonadLift Attempt Emit where
  monadLift x := fun b => (x b).mapError .misuse

/-- How a floating-point register is held that is not part of a double. -/
inductive Half where
  /-- No value yet. -/
  | unloaded
  /-- A single. -/
  | single (v : Value)
  /-- The raw word. -/
  | bits (v : Value)
  deriving DecidableEq, Inhabited

/-- How an even floating-point register and its odd partner are held. -/
inductive Pair where
  | double (v : Value)
  | halves (low high : Half)
  deriving DecidableEq, Inhabited

/-- The value that holds each guest register. -/
structure RegTable where
  /-- `$0` has a value from the start. -/
  gpr : Vector (Option Value) 32
  consts : ConstRegs
  hi : Option Value
  lo : Option Value
  pairs : Vector Pair 16
  fcr : Vector (Option Value) 5
  icnt : Option Value

namespace RegTable

/-- The table in which only `$0` is loaded. -/
def new (zero : Value) : RegTable where
  gpr := (Vector.replicate 32 none).set Gpr.zero.num.val (some zero) Gpr.zero.num_lt
  consts := .variant
  hi := none
  lo := none
  pairs := Vector.replicate 16 (.halves .unloaded .unloaded)
  fcr := Vector.replicate 5 none
  icnt := none

/-! ### Integer registers -/

/-- The value of a register that has to be loaded. -/
def loaded (reg : Tracked) : Option Value → Except Breakdown Value
  | some v => .ok v
  | none => .error (.unloaded reg)

def getGpr (t : RegTable) (r : Gpr) : Except Breakdown Value := loaded (.gpr r) (t.gpr.get r.num)

/-- A write to `$0` has no effect. -/
def setGpr (t : RegTable) (r : Gpr) (v : Value) (known : ConstValue) : RegTable :=
  if r.isZero then t
  else { t with gpr := t.gpr.set r.num.val (some v) r.num_lt, consts := t.consts.set r known }

def getHiLo (t : RegTable) (h : HiLo) : Except Breakdown Value :=
  loaded (.hiLo h) <| match h with
    | .hi => t.hi
    | .lo => t.lo

def setHiLo (t : RegTable) (h : HiLo) (v : Value) : RegTable :=
  match h with
  | .hi => { t with hi := some v }
  | .lo => { t with lo := some v }

def getFcr (t : RegTable) (c : Fcr) : Except Breakdown Value := loaded (.fcr c) (t.fcr.get c.index)

def setFcr (t : RegTable) (c : Fcr) (v : Value) : RegTable :=
  { t with fcr := t.fcr.set c.index.val (some v) c.index_lt }

def getIcnt (t : RegTable) : Except Breakdown Value := loaded .icnt t.icnt

/-! ### Floating-point registers -/

/-- The position of the pair that a register belongs to. -/
def pairIndex (r : Fpr) : Fin 16 := ⟨r.num.val / 2, by omega⟩

def getPair (t : RegTable) (r : Fpr) : Pair := t.pairs.get (pairIndex r)

def setPair (t : RegTable) (r : Fpr) (p : Pair) : RegTable :=
  { t with pairs := t.pairs.set (pairIndex r).val p (pairIndex r).isLt }

/-- The low word of a double. -/
def lowBits (v : Value) : Build Value := do
  let bits ← Build.cast .bitcast v .i64
  Build.cast .trunc bits .i32

/-- The high word of a double. -/
def highBits (v : Value) : Attempt Value := do
  let bits ← Build.cast .bitcast v .i64
  let amount ← Build.const .i64 32
  let high ← Build.binary .lshr bits amount
  Build.cast .trunc high .i32

/-- The word of the register `r`, which is held as a half. -/
def halfBits (r : Fpr) : Half → Emit Value
  | .bits v => return v
  | .single v => Build.cast .bitcast v .i32
  | .unloaded => throw (.unloaded (.fpr r))

/-- The word in a register. -/
def readBits (t : RegTable) (r : Fpr) : Emit Value :=
  match t.getPair r with
  | .double v => if r.isEven then lowBits v else highBits v
  | .halves low high => halfBits r (if r.isEven then low else high)

/-- The single in a register. -/
def readSingle (t : RegTable) (r : Fpr) : Emit Value := do
  let held := match t.getPair r with
    | .halves low high => if r.isEven then low else high
    | .double _ => .unloaded
  match held with
  | .single v => return v
  | _ => Build.cast .bitcast (← t.readBits r) .f32

/-- The double in the pair that a register belongs to. -/
def readDouble (t : RegTable) (r : Fpr) : Emit Value := do
  match t.getPair r with
  | .double v => return v
  | .halves .. =>
    let low ← t.readBits r.base
    let high ← t.readBits r.base.partner
    let low ← Build.cast .zext low .i64
    let high ← Build.cast .zext high .i64
    let amount ← Build.const .i64 32
    let high ← Build.binary .shl high amount
    let bits ← Build.binary .or high low
    Build.cast .bitcast bits .f64

/-- Replaces one register of a pair. The other half of a double keeps its own word. -/
def writeHalf (t : RegTable) (r : Fpr) (h : Half) : Emit RegTable := do
  match t.getPair r with
  | .halves low high => return t.setPair r (if r.isEven then .halves h high else .halves low h)
  | .double v =>
    if r.isEven then return t.setPair r (.halves h (.bits (← highBits v)))
    else return t.setPair r (.halves (.bits (← lowBits v)) h)

def writeBits (t : RegTable) (r : Fpr) (v : Value) : Emit RegTable := t.writeHalf r (.bits v)

def writeSingle (t : RegTable) (r : Fpr) (v : Value) : Emit RegTable := t.writeHalf r (.single v)

def writeDouble (t : RegTable) (r : Fpr) (v : Value) : RegTable := t.setPair r (.double v)

/-- The datum in a register, read in a format. -/
def readFp (t : RegTable) (fmt : FpFormat) (r : Fpr) : Emit Value :=
  match fmt with
  | .single => t.readSingle r
  | .double => t.readDouble r

def writeFp (t : RegTable) (fmt : FpFormat) (r : Fpr) (v : Value) : Emit RegTable :=
  match fmt with
  | .single => t.writeSingle r v
  | .double => return t.writeDouble r v

/-! ### Tracked registers -/

/-- The value of a register in the form it has at region boundaries. -/
def get (t : RegTable) (fp : FpTouched) : Tracked → Emit Value
  | .gpr r => t.getGpr r
  | .hiLo h => t.getHiLo h
  | .fcr c => t.getFcr c
  | .icnt => t.getIcnt
  | .fpr r =>
    match fp.form r with
    | .single => t.readSingle r
    | .double => t.readDouble r
    | .bits | .covered => t.readBits r

/-- Gives a register a value in the form it has at region boundaries. -/
def set (t : RegTable) (fp : FpTouched) (reg : Tracked) (v : Value) : Emit RegTable :=
  match reg with
  | .gpr r => return t.setGpr r v .variant
  | .hiLo h => return t.setHiLo h v
  | .fcr c => return t.setFcr c v
  | .icnt => return { t with icnt := some v }
  | .fpr r =>
    match fp.form r with
    | .single => t.writeSingle r v
    | .double => return t.writeDouble r v
    | .bits | .covered => t.writeBits r v

end RegTable

end HotRegion.Lowering
