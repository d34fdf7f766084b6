import HotRegion.Flow.Dominator
import HotRegion.Region.Block

/-! # The graph of a region

A region is a set of blocks with edges between them. Blocks live in numbered slots, the synthetic
entry in slot 0; a new block takes the slot freed last, or a fresh one. Every change of the blocks
or edges that goes through an edge or an insertion drops the dominator tree. -/

namespace HotRegion

open Isa Analysis
open Machine (Trace)

/-- The number under which a block is kept. -/
abbrev Region.Slot := Nat

/-- The blocks of a region and the edges between them. -/
structure Region where
  entryAddr : UInt32
  slots : Array (Option Region.Block)
  /-- Free slots, the one freed last first. -/
  free : List Region.Slot
  /-- The guest blocks by entry address, ascending. -/
  byAddr : List (UInt32 × Region.Slot)
  tree : Option Flow.DominatorTree
  fpTouched : Analysis.FpTouched

namespace Region

/-- A change that the graph does not allow. -/
inductive GraphError where
  /-- The slot holds no block. -/
  | noBlock (slot : Slot)
  | splitOutside (addr : UInt32)
  | splitNotGuest
  | missingEdge
  | notLikely
  | noDominators
  | strayEdge
  deriving DecidableEq

def GraphError.message : GraphError → String
  | noBlock _ => "no block in this slot"
  | splitOutside addr => s!"split address {Text.hex8 addr.toNat} is not inside the block"
  | splitNotGuest => "only guest blocks can be split"
  | missingEdge => "removing an edge that doesn't exist"
  | notLikely => "patching a block that doesn't end in a likely branch"
  | noDominators => "dominators must be computed before placing phis"
  | strayEdge => "successors of a block must be reachable from its code"

/-! ### Blocks and edges -/

/-- The slot of the synthetic entry. -/
def entrySlot : Slot := 0

/-- The region with the synthetic entry alone. -/
def new (entryAddr : UInt32) : Region where
  entryAddr := entryAddr
  slots := #[some Block.entryBlock]
  free := []
  byAddr := []
  tree := none
  fpTouched := .none

def block? (r : Region) (s : Slot) : Option Block := (r.slots[s]?).join

/-- The block in a slot. -/
def block (r : Region) (s : Slot) : Except GraphError Block :=
  match r.block? s with
  | some b => .ok b
  | none => .error (.noBlock s)

/-- All blocks in the order of their slots. -/
def blocks (r : Region) : List (Slot × Block) :=
  r.slots.toList.zipIdx.filterMap fun (b, s) => b.map (s, ·)

/-- The number of blocks, the synthetic entry included. -/
def size (r : Region) : Nat := r.blocks.length

/-- Replaces the block in a slot. -/
def setBlock (r : Region) (s : Slot) (b : Block) : Region :=
  { r with slots := r.slots.setIfInBounds s (some b) }

/-- The guest block that starts at `addr`. -/
def blockAt? (r : Region) (addr : UInt32) : Option Slot := r.byAddr.lookup addr

/-- Enters the block in `s` as the guest block at `addr`. -/
def setBlockAt (r : Region) (addr : UInt32) (s : Slot) : Region :=
  { r with byAddr := Ascending.put (·.1.toNat) (addr, s) r.byAddr }

/-- Removes the entry for `addr`. -/
def eraseBlockAt (r : Region) (addr : UInt32) : Region :=
  { r with byAddr := r.byAddr.filter (·.1 != addr) }

/-- The first guest block. -/
def firstBlock? (r : Region) : Option Slot := r.blockAt? r.entryAddr

/-- Puts a block into a free slot. -/
def insertBlock (r : Region) (b : Block) : Region × Slot :=
  let (r, s) := match r.free with
    | s :: free => ({ r with slots := r.slots.setIfInBounds s (some b), free := free }, s)
    | [] => ({ r with slots := r.slots.push (some b) }, r.slots.size)
  let r := { r with tree := none }
  (if b.isGuest then r.setBlockAt b.entry s else r, s)

/-- Adds an edge. -/
def addEdge (r : Region) (source target : Slot) : Except GraphError Region := do
  let a ← r.block source
  let r := r.setBlock source { a with succs := Flow.insert target a.succs }
  let b ← r.block target
  return { r.setBlock target { b with preds := Flow.insert source b.preds } with tree := none }

/-- Removes an edge. -/
def removeEdge (r : Region) (source target : Slot) : Except GraphError Region := do
  let a ← r.block source
  if !a.succs.contains target then throw .missingEdge
  let r := r.setBlock source { a with succs := a.succs.filter (· != target) }
  let b ← r.block target
  return { r.setBlock target { b with preds := b.preds.filter (· != source) } with tree := none }

/-- Removes a block and every edge at it, and gives the block. -/
def removeBlock (r : Region) (s : Slot) : Except GraphError (Region × Block) := do
  let r ← (← r.block s).succs.foldlM (fun r t => r.removeEdge s t) r
  let r ← (← r.block s).preds.foldlM (fun r p => r.removeEdge p s) r
  let b ← r.block s
  let r := { r with slots := r.slots.setIfInBounds s none, free := s :: r.free }
  return (if r.blockAt? b.entry = some s then r.eraseBlockAt b.entry else r, b)

/-- Adds the edges from a block to every block of the region that its code can reach. -/
def wireBlock (r : Region) (s : Slot) : Except GraphError Region := do
  (← r.block s).staticTargets.foldlM (fun r addr =>
    match r.blockAt? addr with
    | some t => r.addEdge s t
    | none => .ok r) r

/-- Adds the edges of every block but the synthetic entry. -/
def wire (r : Region) : Except GraphError Region :=
  (r.blocks.filter (!·.2.isRegionEntry)).foldlM (fun r p => r.wireBlock p.1) r

/-- The blocks of the given traces, the first of which is the region entry, and the edge from the
synthetic entry. `indirect` gives the targets seen after a block that ends in a register jump. -/
def ofTraces (traces : List Trace) (indirect : UInt32 → List UInt32) :
    Except GraphError Region :=
  let entryAddr := match traces with
    | t :: _ => t.entry
    | [] => entryMark
  let r := traces.foldl (fun r t =>
    if t.words.isEmpty || (r.blockAt? t.entry).isSome then r
    else
      let b := Block.ofTrace t
      let targets :=
        if b.endsInJumpReg then Ascending.ofList UInt32.toNat (indirect t.entry) else []
      (r.insertBlock { b with indirectTargets := targets }).1) (new entryAddr)
  match r.firstBlock? with
  | some first => r.addEdge entrySlot first
  | none => .ok r

/-- Every successor of the block is one that its code can reach. A patch block stands for the branch
target it goes on at. -/
def isPlausible (r : Region) (b : Block) : Bool :=
  b.succs.all fun s =>
    match r.block? s with
    | none => false
    | some t =>
      if b.isRegionEntry then t.entry == r.entryAddr
      else b.staticTargets.contains (t.patchTarget.getD t.entry)

/-! ### The flow graph -/

/-- The graph that dominance is about. -/
def flowGraph (r : Region) : Flow.Graph where
  entry := entrySlot
  nodes := r.blocks.map (·.1)
  preds s := match r.block? s with
    | some b => b.preds
    | none => []
  succs s := match r.block? s with
    | some b => b.succs
    | none => []

/-- Computes the dominator tree and notes every block's immediate dominator. -/
def computeDominators (r : Region) : Region :=
  let tree := r.flowGraph.dominatorTree
  { r with
    slots := r.slots.mapIdx fun s b => b.map fun b => { b with idom := tree.idom s }
    tree := some tree }

/-- `b` and the blocks above it by the noted immediate dominators, at most `fuel` of them. -/
def idomChain (r : Region) : Nat → Option Slot → List Slot
  | 0, _ | _, none => []
  | fuel + 1, some b => b :: r.idomChain fuel ((r.block? b).bind (·.idom))

/-- `a` dominates `b` by the noted immediate dominators. -/
def dominates (r : Region) (a b : Slot) : Bool :=
  (r.idomChain (r.slots.size + 1) (some b)).contains a

/-- Removes the blocks that cannot be reached from the synthetic entry, and counts them. -/
def prune (r : Region) : Except GraphError (Region × Nat) := do
  let reachable := r.flowGraph.reachable
  let dead := (r.blocks.map (·.1)).filter (!reachable.contains ·)
  let r ← dead.foldlM (fun r s => do return (← r.removeBlock s).1) r
  return (r, dead.length)

/-! ### Facts about a region -/

/-- Computes the floating-point usage of every block and of the whole region. -/
def computeFpUsage (r : Region) : Region :=
  let measure := fun (b : Block) => { b with fpTouched := b.bodyFpTouched }
  let r := { r with slots := r.slots.map (Option.map measure) }
  { r with fpTouched := r.blocks.foldl (fun t p => t.merge p.2.fpTouched) .none }

def precisionCounts (r : Region) : PrecisionCounts :=
  r.blocks.foldl (fun c p => c.merge p.2.precisionCounts) {}

/-- The number of instructions, each address counted once. -/
def instructionCount (r : Region) : Nat :=
  (Ascending.ofList UInt32.toNat (r.blocks.flatMap fun p => p.2.code.map (·.2))).length

def hasIndirectJumps (r : Region) : Bool := r.blocks.any (·.2.endsInJumpReg)

def hasLikelyBranches (r : Region) : Bool := r.blocks.any fun p => p.2.isPatch || p.2.endsInLikely

end Region

end HotRegion
