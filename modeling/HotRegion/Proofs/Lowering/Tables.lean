import HotRegion.Lowering.Function

/-!
# The tables of the walk

The walk hands the register table at the end of a block down to the blocks right below it in the
dominator tree. Each of them makes its phis and then lowers one instruction after the other, and at
every point of its code there is a table that says what the walk takes for known there.
-/

namespace HotRegion.Lowering

open Isa Analysis Ssa Build
open Region (Slot Transfer)

/-- The scope of the walk that generates the function of a region. -/
def Scope.of (r : Region) (usage : Region.Usage) (config : Config) : Scope :=
  ⟨r, usage, config, (declareBlocks r (.new s!"region_{Text.hexDigits8 r.entryAddr.toNat}")).1⟩

/-- A point of a block, between two of its instructions. -/
inductive Point where
  /-- Before the instruction at a position, which is that of the transfer at the latest. -/
  | before (i : Nat)
  /-- Between a transfer and its delay slot, with the return address written. -/
  | delay (tr : Transfer)
  /-- At the end. -/
  | stop

namespace Scope

variable (c : Scope)

/-- Writes the return address of a linking transfer. -/
def linkCode (tr : Transfer) (t : RegTable) : Build RegTable :=
  match tr.insn with
  | .jumpLink _ => link .ra tr.addr t
  | .jumpLinkReg rd _ => link rd tr.addr t
  | _ => return t

/-- The code of a block up to a position. -/
def codeUpTo (b : Region.Block) (i : Nat) (t : RegTable) : Emit RegTable := do
  let t ← c.countInstructions b t
  (b.code.take i).foldlM (fun t p => lower c.config.foldConstants t p.2 (decode p.1)) t

/-- The table at a point of a block that starts from the table `t`. -/
def tableAt (x : Slot) (b : Region.Block) (t : RegTable) : Point → Walk RegTable
  | .before i => do
    let t ← c.addPhis x b t
    (c.codeUpTo b i t : Emit RegTable)
  | .delay tr => do
    let t ← c.addPhis x b t
    let t ← (c.codeUpTo b tr.index t : Emit RegTable)
    linkCode tr t
  | .stop => c.lowerBlock x b t

/-- The walk hands the table to the block. -/
inductive Hands : Slot → RegTable → Prop where
  | root (zero : Value) : Hands Region.entrySlot (.new zero)
  | child {x y : Slot} {b : Region.Block} {t t' : RegTable} {d d' : Draft} (above : Hands x t)
      (block : c.region.block? x = some b)
      (code : (if b.isRegionEntry then c.enterRegion t else c.lowerBlock x b t) d = .ok (t', d'))
      (below : y ∈ c.children x) : Hands y t'

/-- The walk takes a register for the constant `v` at a point of a block. -/
def Knows (x : Slot) (point : Point) (r : Gpr) (v : UInt32) : Prop :=
  ∃ b t t' d d', c.region.block? x = some b ∧ c.Hands x t ∧
    c.tableAt x b t point d = .ok (t', d') ∧ t'.consts.constant? r = some v

end Scope

end HotRegion.Lowering
