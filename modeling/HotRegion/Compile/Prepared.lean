import HotRegion.Compile.Error
import HotRegion.Config
import HotRegion.Profile
import HotRegion.Region.Patch
import HotRegion.Region.Split
import HotRegion.Region.Usage

/-! # Prepared regions

From the profiled traces around a hot address to a region that is ready for code generation: its
blocks are wired and cut where they overlap, likely branches are patched, dead blocks are gone, and
dominators, floating-point usage and merges are computed. -/

namespace HotRegion

open Isa Analysis

/-- What is known of a region once it is prepared. -/
structure Info where
  entry : UInt32
  /-- Blocks in the end, the synthetic entry and patch blocks included. -/
  blocks : Nat
  instructions : Nat
  splits : Nat
  patches : Nat
  pruned : Nat
  phis : Nat
  /-- Registers other than `$0` known to be constant at the ends of blocks. -/
  constants : Nat
  hasIndirectJumps : Bool
  hasLikelyBranches : Bool
  precision : PrecisionCounts
  deriving DecidableEq

instance : ToString Info where
  toString i :=
    s!"region {Text.hex8 i.entry.toNat}: {i.blocks} blocks, {i.instructions} instructions, " ++
    s!"{i.splits} splits, {i.patches} likely patches, {i.pruned} pruned, {i.phis} phis, " ++
    s!"{i.constants} constant registers, {i.precision}" ++
    (if i.hasIndirectJumps then ", indirect jumps" else "") ++
    (if i.hasLikelyBranches then ", likely branches" else "")

/-- A region that is ready for code generation. -/
structure Prepared where
  region : Region
  usage : Region.Usage
  info : Info

namespace Region

/-- The instruction at `addr` is one to compile. -/
def checkInstr (config : Config) (addr : UInt32) (insn : Instr) : Except CompileError Unit :=
  if !insn.canCompile then .error (.unsupported addr insn)
  else if !config.allowFp && insn.isFp then .error (.fpDisabled addr)
  else .ok ()

/-- The instructions of a block, and then its register jump, are ones to compile. -/
def checkBlock (config : Config) (b : Block) : Except CompileError Unit := do
  b.code.forM fun (word, addr) => checkInstr config addr (decode word)
  match b.transfer with
  | some t =>
    if t.control = .jumpReg && !config.allowIndirectJumps then
      throw (.indirectJumpsDisabled t.addr)
  | none => pure ()

/-- All blocks are ones to compile, checked in the order of their slots. -/
def checkCompilable (config : Config) (r : Region) : Except CompileError Unit :=
  r.blocks.forM fun p => checkBlock config p.2

/-- Every successor of every block is one that its code can reach. -/
def checkPlausible (r : Region) : Except GraphError Unit :=
  if r.blocks.all fun p => r.isPlausible p.2 then .ok () else .error .strayEdge

/-- The wired graph with overlaps split, likely branches patched and dead blocks pruned, and how
many there were of each. -/
def shape (config : Config) (r : Region) : Except GraphError (Region × Nat × Nat × Nat) := do
  let r ← r.wire
  r.checkPlausible
  let (r, splits) ← if config.splitBlocks then r.splitOverlaps else pure (r, 0)
  let (r, patches) ← r.patchAll
  let (r, pruned) ← r.prune
  r.checkPlausible
  return (r, splits, patches, pruned)

/-- No floating-point register is used at both widths unless that is allowed. -/
def checkPrecision (config : Config) (r : Region) : Except CompileError Unit :=
  if config.allowMixedPrecision then .ok ()
  else
    match r.fpTouched.mixed with
    | some reg => .error (.mixedPrecisionDisabled reg)
    | none => .ok ()

/-- Registers other than `$0` known to be constant at the ends of blocks. -/
def constantCount (r : Region) : Nat :=
  r.blocks.foldl (fun n p => n + ((p.2.constantRegs .variant).known.length - 1)) 0

end Region

/-- A step on the graph as a step of building a region. -/
def Failure.ofGraph {α : Type} (x : Except Region.GraphError α) : Except Failure α :=
  x.mapError fun e => .broken (.graph e)

/-- Builds the region entered at `entry` from a profile, up to code generation. -/
def prepare (config : Config) (profile : Profile) (entry : UInt32) : Except Failure Prepared :=
  match profile.discover entry config.maxRegionBlocks with
  | none => .error (.refused (.notProfiled entry))
  | some traces => do
    let r ← Failure.ofGraph (Region.ofTraces traces profile.successors)
    (r.checkCompilable config).mapError .refused
    let (r, splits, patches, pruned) ← Failure.ofGraph (r.shape config)
    let r := r.computeDominators.computeFpUsage
    (r.checkPrecision config).mapError .refused
    let usage := Region.Usage.collect r config.countInstructions
    let (placed, phis) ← Failure.ofGraph (r.placePhis usage)
    return {
      region := placed
      usage := usage
      info := {
        entry := entry
        blocks := placed.size
        instructions := placed.instructionCount
        splits := splits
        patches := patches
        pruned := pruned
        phis := phis
        constants := r.constantCount
        hasIndirectJumps := placed.hasIndirectJumps
        hasLikelyBranches := placed.hasLikelyBranches
        precision := placed.precisionCounts } }

end HotRegion
