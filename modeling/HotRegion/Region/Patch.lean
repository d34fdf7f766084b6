import HotRegion.Region.Graph

/-! # Patching likely branches

The delay slot of a likely branch runs only if the branch is taken. Patching moves it into a block
of its own on the taken edge. -/

namespace HotRegion.Region

/-- Moves the delay slot of the likely branch that ends a block into a patch block, and gives the
slot of the patch block. -/
def patchLikely (r : Region) (s : Slot) : Except GraphError (Region × Slot) := do
  let b ← r.block s
  match b.transfer, b.words.getLast? with
  | some { addr, control := .branch taken notTaken true, .. }, some delay =>
    let (r, p) := r.insertBlock (Block.patch delay (addr + 4) taken)
    let r ← match r.blockAt? taken with
      | some t =>
        if b.succs.contains t then do
          let r ← if taken = notTaken then pure r else r.removeEdge s t
          r.addEdge p t
        else pure r
      | none => pure r
    return (← r.addEdge s p, p)
  | _, _ => throw .notLikely

/-- Patches all likely branches and counts them. -/
def patchAll (r : Region) : Except GraphError (Region × Nat) := do
  let likely := (r.blocks.filter fun p => !p.2.isPatch && p.2.endsInLikely).map (·.1)
  let r ← likely.foldlM (fun r s => do return (← r.patchLikely s).1) r
  return (r, likely.length)

end HotRegion.Region
