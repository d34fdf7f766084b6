import HotRegion.Flow.Frontier
import HotRegion.Region.Graph

/-! # Register usage and phis

Which blocks define and which read each tracked register, and the merges that make every register
have one definition that reaches each point: a register is merged at the iterated dominance
frontier of the blocks that define it. -/

namespace HotRegion.Region

open Isa

/-- The registers that the blocks of a region define and read. -/
structure Usage where
  /-- The blocks that define each register, both ascending. -/
  defs : List (Tracked × List Slot) := []
  /-- The registers that some block reads before it defines them, ascending. -/
  reads : List Tracked := []
  deriving DecidableEq

namespace Usage

/-- The blocks that define a register. -/
def defBlocks (u : Usage) (r : Tracked) : List Slot := (u.defs.lookup r).getD []

/-- Adds a definition. -/
def addDef (u : Usage) (r : Tracked) (s : Slot) : Usage :=
  { u with
    defs := Ascending.put (·.1.key) (r, Flow.insert s (u.defBlocks r)) u.defs }

/-- Adds a read. -/
def addRead (u : Usage) (r : Tracked) : Usage := { u with reads := Tracked.insert r u.reads }

/-- The usage with one instruction of the block in `s` added, after the registers `defined` in that
block: first its reads, then its writes. -/
def addInstr (fp : Analysis.FpTouched) (s : Slot) (acc : Usage × List Tracked) (insn : Instr) :
    Usage × List Tracked :=
  let (u, defined) := acc
  let u := (insn.uses.flatMap (Tracked.ofRef fp)).foldl
    (fun u r => if defined.contains r then u else u.addRead r) u
  (insn.effectiveDefs.flatMap (Tracked.ofRef fp)).foldl
    (fun (u, defined) r => (u.addDef r s, r :: defined)) (u, defined)

/-- The usage of a region. With `counting`, every block that retires an instruction also defines the
instruction count. -/
def collect (r : Region) (counting : Bool) : Usage :=
  let u := r.blocks.foldl (fun u (s, b) =>
    let u := (b.body.foldl (addInstr r.fpTouched s) (u, [])).1
    if counting && 0 < b.instructionCount then u.addDef .icnt s else u) {}
  if counting then u.addRead .icnt else u

/-- The registers that must be written back on leaving the region. -/
def written (u : Usage) : List Tracked := u.defs.map (·.1)

/-- The registers whose value is needed on entry: all that are read or written. -/
def liveIn (u : Usage) : List Tracked := Ascending.union Tracked.key u.reads u.written

end Usage

/-- Merges a register at the start of the block in a slot, and counts that unless the block merges the
register already. -/
def mergeAt (reg : Tracked) (placed : Region × Nat) (s : Slot) : Region × Nat :=
  match placed.1.block? s with
  | some b =>
    (placed.1.setBlock s (b.addPhi reg),
      if b.phis.contains reg then placed.2 else placed.2 + 1)
  | none => placed

/-- Merges a register at the starts of the blocks in the given slots. -/
def addPhis (placed : Region × Nat) (reg : Tracked) (slots : List Slot) : Region × Nat :=
  slots.foldl (mergeAt reg) placed

/-- Merges every defined register at the iterated dominance frontier of its definitions, and counts
the new merges. -/
def placePhis (r : Region) (u : Usage) : Except GraphError (Region × Nat) :=
  match r.tree with
  | none => .error .noDominators
  | some tree =>
    let frontiers := tree.frontiers r.flowGraph
    .ok (u.defs.foldl (fun placed (reg, defs) =>
      addPhis placed reg (Flow.iteratedFrontier frontiers defs)) (r, 0))

end HotRegion.Region
