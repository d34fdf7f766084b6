import HotRegion.Analysis.Constant
import HotRegion.Region.Tracked

/-! # Blocks of a region

A block is a run of consecutive instruction words with its place in the graph. There are three
kinds: guest blocks, the synthetic entry, and patch blocks, which hold the delay slot of a likely
branch on the edge that takes the branch. -/

namespace HotRegion.Region

open Isa Analysis
open Machine (Trace wordAddr)

/-- The address of the synthetic entry. No aligned instruction lies there. -/
def entryMark : UInt32 := 0xffffffff

/-- The control transfer that ends a block. Its delay slot follows it. -/
structure Transfer where
  /-- Position in the block. -/
  index : Nat
  addr : UInt32
  insn : Instr
  control : Control

def Transfer.isLikely (t : Transfer) : Bool :=
  match t.control with
  | .branch _ _ likely => likely
  | _ => false

/-- A block. The word at position `i` lies at `entry + 4 * i`, wrapping. -/
structure Block where
  entry : UInt32
  words : List UInt32
  /-- The instructions, decoded once and kept beside their words. -/
  instrs : List Instr := words.map decode
  decoded : instrs = words.map decode := by exact rfl
  /-- In a patch block, the target of the branch. -/
  patchTarget : Option UInt32 := none
  /-- The targets that a register jump at the end was seen to reach, ascending. -/
  indirectTargets : List UInt32 := []
  /-- Ascending. -/
  succs : List Nat := []
  /-- Ascending. -/
  preds : List Nat := []
  idom : Option Nat := none
  /-- The registers merged at the start of the block. -/
  phis : List Tracked := []
  fpTouched : FpTouched := .none

namespace Block

/-- The synthetic entry. -/
def entryBlock : Block := { entry := entryMark, words := [] }

def ofTrace (t : Trace) : Block := { entry := t.entry, words := t.words }

/-- The block that runs the delay slot `word` at `addr` and goes on at the branch target. -/
def patch (word addr target : UInt32) : Block :=
  { entry := addr, words := [word], patchTarget := some target }

/-- The block stands at the address of the synthetic entry. -/
def isRegionEntry (b : Block) : Bool := b.entry == entryMark

def isPatch (b : Block) : Bool := b.patchTarget.isSome

/-- The block is neither a patch block nor the synthetic entry. -/
def isGuest (b : Block) : Bool := !b.isPatch && !b.isRegionEntry

def length (b : Block) : Nat := b.words.length

/-- The words with their addresses. -/
def code (b : Block) : List (UInt32 × UInt32) :=
  b.words.zipIdx.map fun (w, i) => (w, wordAddr b.entry i)

/-- Address of the last instruction. -/
def exitAddr (b : Block) : UInt32 := wordAddr b.entry (b.length - 1)

/-- The position of the instruction at `addr`. -/
def position? (b : Block) (addr : UInt32) : Option Nat := b.code.findIdx? (·.2 == addr)

/-- One of the instructions lies at `addr`. -/
def contains (b : Block) (addr : UInt32) : Bool := (b.position? addr).isSome

/-- The control transfer that ends the block. Only the second to last instruction can be one. -/
def transfer (b : Block) : Option Transfer :=
  match b.words[b.length - 2]? with
  | none => none
  | some word =>
    if b.length < 2 then none
    else
      let addr := wordAddr b.entry (b.length - 2)
      let insn := decode word
      let control := insn.control addr
      if control.isTransfer then some ⟨b.length - 2, addr, insn, control⟩ else none

def endsInTransfer (b : Block) : Bool := b.transfer.isSome

def endsInLikely (b : Block) : Bool :=
  match b.transfer with
  | some t => t.isLikely
  | none => false

def endsInJumpReg (b : Block) : Bool :=
  match b.transfer with
  | some t => t.control = .jumpReg
  | none => false

/-- The instructions that run whenever the block does: all but the delay slot of a likely branch,
which belongs to the patch block. -/
def body (b : Block) : List Instr := if b.endsInLikely then b.instrs.dropLast else b.instrs

/-- Where control goes on after a block without a transfer. -/
def fallthrough (b : Block) : Option UInt32 :=
  if b.endsInTransfer then none else some (b.patchTarget.getD (b.exitAddr + 4))

/-- Every known address at which control may go on. -/
def staticTargets (b : Block) : List UInt32 :=
  match b.transfer with
  | some t => if t.control = .jumpReg then b.indirectTargets else t.control.targets
  | none => b.fallthrough.toList

/-- The number of instructions that run when control passes through. -/
def instructionCount (b : Block) : Nat := b.body.length

/-- What is known of the registers after the body, from what is known before it. -/
def constantRegs (b : Block) (regs : ConstRegs) : ConstRegs := regs.run b.entry b.body

/-- The floating-point registers that the body touches. -/
def bodyFpTouched (b : Block) : FpTouched :=
  b.body.foldl (fun t insn => (t.touchRefs insn.uses).touchRefs insn.defs) .none

def precisionCounts (b : Block) : PrecisionCounts := .ofInstrs b.body

/-- Merges a register at the start of the block, unless that is so already. -/
def addPhi (b : Block) (r : Tracked) : Block :=
  if b.phis.contains r then b else { b with phis := b.phis ++ [r] }

/-- The block before position `i` and the block from there on. Words and instructions are cut at the
same place. The targets of a register jump go with the second block. -/
def splitAt (b : Block) (i : Nat) : Block × Block :=
  ({ b with
      words := b.words.take i
      instrs := b.instrs.take i
      decoded := by rw [b.decoded, List.map_take]
      indirectTargets := [] },
    { entry := wordAddr b.entry i
      words := b.words.drop i
      instrs := b.instrs.drop i
      decoded := by rw [b.decoded, List.map_drop]
      indirectTargets := b.indirectTargets })

end Block

end HotRegion.Region
