import HotRegion.Ieee.Arithmetic
import HotRegion.Ssa.Function

/-! # Running functions

The meaning of every instruction, and the run of a function against a guest machine. A run either
exits, gets stuck on a function that breaks a rule, or uses up the number of blocks it was given. -/

namespace HotRegion.Ssa

open Machine (Loc Width)

/-- A guest machine that region code can run against. -/
class GuestMachine (σ : Type) where
  readLoc : σ → Loc → UInt64
  writeLoc : σ → Loc → UInt64 → σ
  /-- The zero-extended value at an address. -/
  load : σ → UInt32 → Width → UInt64
  store : σ → UInt32 → Width → UInt64 → σ

instance : GuestMachine Machine.State where
  readLoc := Machine.State.readLoc
  writeLoc := Machine.State.writeLoc
  load s addr width := s.mem.read addr width
  store s addr width bits := { s with mem := s.mem.write addr width bits }

/-! ### Operations on bits -/

/-- The low `width` bits as a two's complement number. -/
def signExtend (bits : UInt64) (width : Nat) : Int64 :=
  let shift := spareBits width
  (bits <<< shift).toInt64 >>> shift.toInt64

/-- What the bits of a float denote. -/
def Ty.value (ty : Ty) (bits : UInt64) : Ieee.Value :=
  match ty with
  | f32 => Ieee.value32 bits.toUInt32
  | _ => Ieee.value64 bits

/-- A float operation on two values, given for both formats. -/
def floatBinary (ty : Ty) (op32 : UInt32 → UInt32 → UInt32) (op64 : UInt64 → UInt64 → UInt64)
    (a b : UInt64) : UInt64 :=
  match ty with
  | .f32 => (op32 a.toUInt32 b.toUInt32).toUInt64
  | _ => op64 a b

/-- A float operation on one value, given for both formats. -/
def floatUnary (ty : Ty) (op32 : UInt32 → UInt32) (op64 : UInt64 → UInt64) (a : UInt64) : UInt64 :=
  match ty with
  | .f32 => (op32 a.toUInt32).toUInt64
  | _ => op64 a

/-- An operation on two values of type `ty`. -/
def BinOp.eval (op : BinOp) (ty : Ty) (a b : UInt64) : UInt64 :=
  let sa := signExtend a ty.width
  let sb := signExtend b ty.width
  let amount := shiftAmount ty.width b
  let bits := match op with
    | add => a + b
    | sub => a - b
    | mul => a * b
    | and => a &&& b
    | or => a ||| b
    | xor => a ^^^ b
    | shl => a <<< amount
    | lshr => a >>> amount
    | ashr => (sa >>> amount.toInt64).toUInt64
    | udiv => if b = 0 then 0 else a / b
    | sdiv => if sb = 0 then 0 else (sa / sb).toUInt64
    | urem => if b = 0 then a else a % b
    | srem => if sb = 0 then a else (sa % sb).toUInt64
    | fadd => floatBinary ty Ieee.add32 Ieee.add64 a b
    | fsub => floatBinary ty Ieee.sub32 Ieee.sub64 a b
    | fmul => floatBinary ty Ieee.mul32 Ieee.mul64 a b
    | fdiv => floatBinary ty Ieee.div32 Ieee.div64 a b
  bits &&& ty.mask

/-- The number of zeros above the highest set bit of 64. -/
def leadingZeros (a : UInt64) : UInt64 := if a = 0 then 64 else 63 - a.log2

/-- An operation on one value of type `ty`. -/
def UnOp.eval (op : UnOp) (ty : Ty) (a : UInt64) : UInt64 :=
  let sign : UInt64 := 1 <<< signBit ty.width
  let bits := match op with
    | not => ~~~a
    | clz => leadingZeros a - spareBits ty.width
    | fneg => a ^^^ sign
    | fabs => a &&& ~~~sign
    | fsqrt => floatUnary ty Ieee.sqrt32 Ieee.sqrt64 a
    | froundEven =>
      floatUnary ty (Ieee.roundIntegral32 .nearestEven) (Ieee.roundIntegral64 .nearestEven) a
  bits &&& ty.mask

/-- A comparison of two integers of type `ty`. -/
def IntCC.eval (cond : IntCC) (ty : Ty) (a b : UInt64) : Bool :=
  let sa := signExtend a ty.width
  let sb := signExtend b ty.width
  match cond with
  | eq => a == b
  | ne => a != b
  | slt => sa < sb
  | sle => sa ≤ sb
  | sgt => sb < sa
  | sge => sb ≤ sa
  | ult => a < b
  | ule => a ≤ b
  | ugt => b < a
  | uge => b ≤ a

/-- A comparison of two floats. -/
def FloatCC.eval (cond : FloatCC) (a b : Ieee.Value) : Bool :=
  match a.compare b with
  | none => cond.unordered
  | some .lt => cond.less
  | some .eq => cond.equal
  | some .gt => false

/-- The integer of the given width that a number truncates to; NaN and what does not fit give the
largest. For 64 bits the program takes the largest from the word with the sign bit alone, which wraps
to it; a build that checks for overflow stops there instead. -/
def truncToInt (width : Nat) (v : Ieee.Value) : Int :=
  let largest : Int := twoPow (signBit width).toNat - 1
  match v.toInt? .towardZero with
  | some n => if -largest - 1 ≤ n ∧ n ≤ largest then n else largest
  | none => largest

/-- The low 64 bits of an integer in two's complement. -/
def bitsOfInt (n : Int) : UInt64 := UInt64.ofNat (n % 0x10000000000000000).toNat

/-- A conversion between types. -/
def CastOp.eval (op : CastOp) (source target : Ty) (a : UInt64) : UInt64 :=
  let bits := match op with
    | zext | trunc | bitcast => a
    | sext => (signExtend a source.width).toUInt64
    | sitofp =>
      let n := (signExtend a source.width).toInt
      match target with
      | .f32 => (Ieee.ofInt32 n).toUInt64
      | _ => Ieee.ofInt64 n
    | fptosi => bitsOfInt (truncToInt target.width (source.value a))
    | fpext => Ieee.widen a.toUInt32
    | fptrunc => (Ieee.narrow a).toUInt64
  bits &&& target.mask

/-- The bits that a memory access of the given width holds. -/
def widthMask (width : Width) : UInt64 := lowMask width.bits

/-! ### Runs -/

/-- The values assigned so far and the guest machine. -/
structure Frame (σ : Type) where
  values : Array UInt64
  machine : σ

namespace Frame

variable {σ : Type}

/-- The bits of a value; a value that was not assigned is zero. -/
def get (fr : Frame σ) (v : Value) : UInt64 := fr.values.getD v.index 0

def set (fr : Frame σ) (v : Value) (bits : UInt64) : Frame σ :=
  { fr with values := fr.values.setIfInBounds v.index bits }

/-- The truth value that a value holds. -/
def isTrue (fr : Frame σ) (v : Value) : Bool := fr.get v &&& 1 == 1

end Frame

/-- Why a run cannot go on. No rule that `Function.validate` checks is broken in the first case. -/
inductive Stuck where
  /-- A phi in the entry block, where control comes from nowhere. -/
  | phiInEntry
  | phiWithoutIncoming (phi : Value)
  | unterminated (block : BlockId)
  | unknownBlock (block : BlockId)
  | phiAmongInstructions (phi : Value)
  deriving DecidableEq

def Stuck.message : Stuck → String
  | phiInEntry => "validated functions don't have phis in the entry"
  | phiWithoutIncoming _ => "validated phis cover every predecessor"
  | unterminated _ => "validated blocks are terminated"
  | unknownBlock _ => "validated functions have every block they branch to"
  | phiAmongInstructions _ => "phis are evaluated on block entry"

section

variable {σ : Type} [GuestMachine σ]

/-- Runs an instruction other than a phi. -/
def stepInst (f : Function) (fr : Frame σ) (inst : Inst) : Except Stuck (Frame σ) :=
  match inst with
  | .const dst bits => .ok (fr.set dst bits)
  | .binary dst op lhs rhs => .ok (fr.set dst (op.eval (f.ty dst) (fr.get lhs) (fr.get rhs)))
  | .unary dst op src => .ok (fr.set dst (op.eval (f.ty dst) (fr.get src)))
  | .icmp dst cond lhs rhs =>
    .ok (fr.set dst (cond.eval (f.ty lhs) (fr.get lhs) (fr.get rhs)).toUInt64)
  | .fcmp dst cond lhs rhs =>
    let ty := f.ty lhs
    .ok (fr.set dst (cond.eval (ty.value (fr.get lhs)) (ty.value (fr.get rhs))).toUInt64)
  | .select dst cond ifTrue ifFalse =>
    .ok (fr.set dst (fr.get (if fr.isTrue cond then ifTrue else ifFalse)))
  | .cast dst op src => .ok (fr.set dst (op.eval (f.ty src) (f.ty dst) (fr.get src)))
  | .load dst width signed addr =>
    let raw := GuestMachine.load fr.machine (fr.get addr).toUInt32 width
    let bits := if signed then (signExtend raw width.bits).toUInt64 else raw
    .ok (fr.set dst (bits &&& (f.ty dst).mask))
  | .store width addr value =>
    let bits := fr.get value &&& widthMask width
    .ok { fr with machine := GuestMachine.store fr.machine (fr.get addr).toUInt32 width bits }
  | .readGuest dst loc =>
    .ok (fr.set dst (GuestMachine.readLoc fr.machine loc &&& (Ty.ofLoc loc).mask))
  | .writeGuest loc value =>
    .ok { fr with machine := GuestMachine.writeLoc fr.machine loc (fr.get value) }
  | .phi dst _ => .error (.phiAmongInstructions dst)

/-- The value that a phi takes when control comes from `pred`. -/
def phiValue (fr : Frame σ) (pred : Option BlockId) : Inst → Except Stuck (Value × UInt64)
  | .phi dst incoming =>
    match pred with
    | none => .error .phiInEntry
    | some p =>
      match incoming.find? (·.1 == p) with
      | some (_, value) => .ok (dst, fr.get value)
      | none => .error (.phiWithoutIncoming dst)
  | inst => .ok ((inst.dst?).getD ⟨0⟩, 0)

/-- Assigns all phis at once: each reads the values from before any is assigned. -/
def enterBlock (fr : Frame σ) (pred : Option BlockId) (b : Block) : Except Stuck (Frame σ) := do
  let assignments ← b.phis.mapM (phiValue fr pred)
  return assignments.foldl (fun fr (dst, bits) => fr.set dst bits) fr

/-- Where a region was left, and why. -/
structure Exit where
  pc : UInt32
  reason : ExitReason
  deriving DecidableEq

/-- Where control goes at the end of a block. -/
inductive Next where
  | block (id : BlockId)
  | exit (e : Exit)

/-- Runs the terminator of a block. -/
def endBlock (fr : Frame σ) : Terminator → Next
  | .jump target => .block target
  | .branch cond ifTrue ifFalse _ => .block (if fr.isTrue cond then ifTrue else ifFalse)
  | .exit pc reason => .exit ⟨(fr.get pc).toUInt32, reason⟩

/-- Runs one block. -/
def runBlock (f : Function) (fr : Frame σ) (pred : Option BlockId) (id : BlockId) :
    Except Stuck (Frame σ × Next) := do
  match f.block? id with
  | none => throw (.unknownBlock id)
  | some b =>
    let fr ← enterBlock fr pred b
    let fr ← b.body.foldlM (stepInst f) fr
    match b.terminator with
    | none => throw (.unterminated id)
    | some t => return (fr, endBlock fr t)

/-- How a run ended. -/
inductive Outcome (σ : Type) where
  | exited (e : Exit) (machine : σ)
  | stuck (cause : Stuck)
  /-- The run takes more blocks than it was given. -/
  | outOfFuel

/-- Runs at most `fuel` blocks from block `id` on, entered from `pred`. -/
def runFrom (f : Function) : Nat → Frame σ → Option BlockId → BlockId → Outcome σ
  | 0, _, _, _ => .outOfFuel
  | fuel + 1, fr, pred, id =>
    match runBlock f fr pred id with
    | .error cause => .stuck cause
    | .ok (fr, .exit e) => .exited e fr.machine
    | .ok (fr, .block next) => runFrom f fuel fr (some id) next

/-- Runs a function against a machine, at most `fuel` blocks. -/
def run (fuel : Nat) (f : Function) (machine : σ) : Outcome σ :=
  runFrom f fuel ⟨Array.replicate f.types.size 0, machine⟩ none Function.entry

end

end HotRegion.Ssa
