import HotRegion.Region.Graph

/-! # Text of a region

A listing of the blocks in address order, the synthetic entry first. -/

namespace HotRegion.Region

/-- A short name for a block. -/
def Block.name (b : Block) : String :=
  if b.isRegionEntry then "ENTRY"
  else if b.isPatch then s!"patch_{Text.hexDigits8 b.entry.toNat}"
  else s!"bb_{Text.hexDigits8 b.entry.toNat}"

/-- The name of the block in a slot. -/
def blockName (r : Region) (s : Slot) : String :=
  match r.block? s with
  | some b => b.name
  | none => ""

/-- The order of the listing: the synthetic entry, then by address, then by slot. -/
def listedBefore (p q : Slot × Block) : Bool :=
  let rank := fun (b : Block) => if b.isRegionEntry then 0 else 1
  if rank p.2 ≠ rank q.2 then rank p.2 < rank q.2
  else if p.2.entry ≠ q.2.entry then p.2.entry < q.2.entry
  else p.1 ≤ q.1

def blockText (r : Region) (b : Block) : String :=
  let idom := match b.idom with
    | some d => s!" ; idom {r.blockName d}"
    | none => ""
  let phis := b.phis.map fun reg => s!"    phi {reg}\n"
  let lines := b.code.map fun (word, addr) =>
    s!"    {Text.hexDigits8 addr.toNat}  {(Isa.decode word).text}\n"
  let succs := ", ".intercalate (b.succs.map r.blockName)
  s!"{b.name}:{idom}\n" ++ String.join phis ++ String.join lines ++ s!"    -> [{succs}]\n"

def text (r : Region) : String :=
  s!"region {Text.hex8 r.entryAddr.toNat} ({r.size} blocks)\n" ++
    String.join ((r.blocks.mergeSort listedBefore).map fun p => r.blockText p.2)

instance : ToString Region := ⟨text⟩

end HotRegion.Region
