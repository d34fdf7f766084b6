import HotRegion.Ascending
import HotRegion.Ssa.Terminator
import HotRegion.Text.Number

/-! # Counters

What an engine counts while it runs, and the report on it. -/

namespace HotRegion

open Ssa (ExitReason)

/-- The counters of an engine. -/
structure Stats where
  /-- Regions that were tried to build. -/
  attempts : Nat := 0
  compiled : Nat := 0
  failed : Nat := 0
  evictions : Nat := 0
  /-- Runs of compiled regions. -/
  invocations : Nat := 0
  /-- Runs of compiled regions by the reason of their exit. -/
  exits : Vector Nat 4 := Vector.replicate 4 0
  /-- Blocks that were interpreted. -/
  interpreted : Nat := 0
  /-- Instructions retired in each region, by ascending entry address. -/
  instructions : List (UInt32 × UInt64) := []
  deriving DecidableEq

namespace Stats

/-- Region exits for a reason. -/
def exitCount (s : Stats) (reason : ExitReason) : Nat := s.exits.get reason.index

/-- Instructions retired in the region entered at `entry`. -/
def retiredIn (s : Stats) (entry : UInt32) : UInt64 := (s.instructions.lookup entry).getD 0

/-- Adds one run of the region entered at `entry` that retired `count` instructions. -/
def recordRun (s : Stats) (entry : UInt32) (reason : ExitReason) (count : UInt64) : Stats :=
  { s with
    invocations := s.invocations + 1
    exits := s.exits.set reason.index (s.exitCount reason + 1)
    instructions :=
      Ascending.put (·.1.toNat) (entry, s.retiredIn entry + count) s.instructions }

/-- Instructions retired in all regions. -/
def compiledInstructions (s : Stats) : UInt64 :=
  s.instructions.foldl (fun n p => n + p.2) 0

/-- The counters with their labels, one a line, then the regions. -/
def text (s : Stats) : String :=
  let exits := ExitReason.all.map fun reason =>
    "  exits " ++ Text.padRight 14 s!"{reason}:" ++ s!" {s.exitCount reason}"
  let regions := s.instructions.map fun (entry, count) => s!"  {Text.hex8 entry.toNat}: {count}"
  "\n".intercalate <|
    [s!"compile attempts:   {s.attempts}", s!"regions compiled:   {s.compiled}",
      s!"regions failed:     {s.failed}", s!"regions evicted:    {s.evictions}",
      s!"region invocations: {s.invocations}"] ++ exits ++
    [s!"interpreted blocks: {s.interpreted}",
      s!"compiled instructions: {s.compiledInstructions}"] ++ regions

instance : ToString Stats := ⟨text⟩

end Stats

end HotRegion
