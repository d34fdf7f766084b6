import HotRegion.Region.Graph

/-! # Splitting blocks

Traces may start in the middle of one another. Splitting cuts a block at every address where
another one starts, so that in the end an instruction other than a delay slot belongs to one block.
-/

namespace HotRegion.Region

/-- Cuts a guest block in two and gives the slot of the second half, which takes over the edges that
leave the block. -/
def splitAt (r : Region) (s : Slot) (addr : UInt32) : Except GraphError (Region × Slot) := do
  let b ← r.block s
  if !b.isGuest then throw .splitNotGuest
  match b.position? addr with
  | none => throw (.splitOutside addr)
  | some i =>
    if addr ≤ b.entry then throw (.splitOutside addr)
    let (head, tail) := b.splitAt i
    let (r, t) := (r.setBlock s head).insertBlock tail
    let r ← b.succs.foldlM (fun r u => do (← r.removeEdge s u).addEdge t u) r
    return (← r.addEdge s t, t)

/-- The instruction of a block at `addr` is a delay slot. -/
def Block.isDelaySlot (b : Block) (addr : UInt32) : Bool :=
  let i := ((addr - b.entry) / 4).toNat
  0 < i && match b.words[i - 1]? with
    | some word => (Isa.decode word).hasDelaySlot
    | none => false

/-- The block in slot `s` holds an instruction at `addr` that is not a delay slot. -/
def overlaps (r : Region) (addr : UInt32) (s : Slot) : Bool :=
  match r.block? s with
  | some b => b.contains addr && !b.isDelaySlot addr
  | none => false

/-- The first guest block that starts inside a block with a lower address, and that block; of
several the one with the highest address. -/
def findOverlap (r : Region) : Option (Slot × Slot) :=
  r.byAddr.findSome? fun (addr, inner) =>
    ((r.byAddr.takeWhile (·.1 < addr)).reverse.find? fun p => r.overlaps addr p.2).map
      fun p => (p.2, inner)

/-- Cuts `outer` where `inner` starts. If the second half is the same code as `inner`, it takes the
place of `inner`; otherwise `inner` takes its place. -/
def splitOverlap (r : Region) (outer inner : Slot) : Except GraphError Region := do
  let old ← r.block inner
  let addr := old.entry
  let (r, tail) ← (r.eraseBlockAt addr).splitAt outer addr
  let old ← r.block inner
  let new ← r.block tail
  if new.words = old.words then
    let preds := old.preds.filter (· != inner)
    let (r, duplicate) ← r.removeBlock inner
    let new ← r.block tail
    let r := r.setBlock tail { new with
      indirectTargets :=
        Ascending.union UInt32.toNat new.indirectTargets duplicate.indirectTargets }
    let r ← preds.foldlM (fun r p => r.addEdge p tail) r
    r.wireBlock tail
  else
    let (r, _) ← r.removeBlock tail
    (r.setBlockAt addr inner).addEdge outer inner

/-- Resolves overlaps, at most `fuel`, and counts them. -/
def splitOverlapsFrom : Nat → Region → Nat → Except GraphError (Region × Nat)
  | 0, r, splits => .ok (r, splits)
  | fuel + 1, r, splits =>
    match r.findOverlap with
    | none => .ok (r, splits)
    | some (outer, inner) => do splitOverlapsFrom fuel (← r.splitOverlap outer inner) (splits + 1)

/-- The number of instruction words in all blocks. -/
def wordCount (r : Region) : Nat := r.blocks.foldl (fun n p => n + p.2.length) 0

/-- Resolves all overlaps and counts them. Each one removes words from the region. -/
def splitOverlaps (r : Region) : Except GraphError (Region × Nat) :=
  splitOverlapsFrom r.wordCount r 0

end HotRegion.Region
