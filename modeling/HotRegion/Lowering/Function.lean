import HotRegion.Config
import HotRegion.Lowering.Instruction
import HotRegion.Region.Printer
import HotRegion.Region.Usage

/-! # Lowering regions

The function of a region is made by a preorder walk of its dominator tree. Every block of the
region gets a block of the function and starts from the register table of its immediate dominator,
with a phi for each merged register. The table at the source of every edge is kept, and the phis
take their incoming values from these tables in the end. Control that leaves the region goes to an
exit block, which writes back every register that the region defines. -/

namespace HotRegion.Lowering

open Isa Analysis Ssa Build
open Region (Tracked Slot Usage Transfer)

/-- The merged registers of a block with their phis. -/
abbrev Phis := List (Tracked × Value)

/-- An edge into a block of the region, with the register table at its source. -/
structure Edge where
  target : Slot
  source : BlockId
  table : RegTable

/-- A function under construction with what the walk has noted so far. -/
structure Draft where
  builder : Builder
  /-- By ascending slot. -/
  phis : List (Slot × Phis) := []
  /-- In the order of the walk. -/
  edges : Array Edge := #[]
  /-- The number of exit blocks. -/
  exits : Nat := 0

/-- A step of the walk. -/
abbrev Walk := StateT Draft (Except Breakdown)

instance : MonadLift Emit Walk where
  monadLift x := fun ⟨builder, phis, edges, exits⟩ => do
    let (a, builder) ← x builder
    return (a, ⟨builder, phis, edges, exits⟩)

/-- What the walk is about. -/
structure Scope where
  region : Region
  usage : Usage
  config : Config
  /-- The block of the function for every block of the region. -/
  blocks : List (Slot × BlockId)

/-- Where the guest continues after an exit. -/
inductive ExitPc where
  | known (addr : UInt32)
  | held (v : Value)

/-- Declares a block of the function for every block of the region, in the order of slots. The
synthetic entry is the entry of the function. -/
def declareBlocks (r : Region) : Build (List (Slot × BlockId)) :=
  r.blocks.mapM fun (s, b) => do
    return (s, ← if b.isRegionEntry then pure Function.entry else declareBlock b.name)

namespace Scope

variable (c : Scope)

/-- How the region uses its floating-point registers. -/
def fp : FpTouched := c.region.fpTouched

def guestBlock (s : Slot) : Except Breakdown Region.Block := (c.region.block s).mapError .graph

def blockOf (s : Slot) : Except Breakdown BlockId :=
  match c.blocks.lookup s with
  | some b => .ok b
  | none => .error (.noCode s)

/-- The blocks below a block in the dominator tree. -/
def children (s : Slot) : List Slot :=
  match c.region.tree with
  | some tree => tree.children s
  | none => []

/-- The first successor that the given property holds of. -/
def findSucc (b : Region.Block) (p : Region.Block → Bool) : Except Breakdown (Option Slot) :=
  b.succs.findM? fun s => return p (← c.guestBlock s)

/-- The successor of a block that is not a patch block and starts at `addr`. -/
def succAt (b : Region.Block) (addr : UInt32) : Except Breakdown (Option Slot) :=
  c.findSucc b fun t => !t.isPatch && t.entry == addr

/-! ### Edges and exits -/

/-- Notes an edge from the current block. -/
def noteEdge (target : Slot) (t : RegTable) : Walk Unit := modify fun d =>
  { d with edges := d.edges.push ⟨target, d.builder.current, t⟩ }

/-- Goes on at a block of the region. -/
def jumpTo (target : Slot) (t : RegTable) : Walk Unit := do
  noteEdge target t
  terminate (.jump (← c.blockOf target))

/-- Writes back every register that the region defines. -/
def writeBack (t : RegTable) : Emit Unit :=
  c.usage.written.forM fun reg => do
    let v ← t.get c.fp reg
    let loc := reg.loc c.fp
    let raw ← if (← ty v).isFloat then cast .bitcast v (.ofLoc loc) else pure v
    writeGuest loc raw

/-- A new block that leaves the region. The current block stays the same. -/
def exitBlock (t : RegTable) (pc : ExitPc) (reason : ExitReason) : Walk BlockId := do
  let current := (← get).builder.current
  modify fun d => { d with exits := d.exits + 1 }
  let block ← declareBlock s!"deopt{(← get).exits}"
  switchTo block
  let pc ← match pc with
    | .known addr => do
      setBlockComment block (some s!"{reason} to {Text.hex8 addr.toNat}")
      word addr
    | .held v => do
      setBlockComment block (some (toString reason))
      pure v
  c.writeBack t
  terminate (.exit pc reason)
  switchTo current
  return block

/-- The block to go on at: the code of a successor, or a new exit. -/
def edgeTo (target : Option Slot) (t : RegTable) (pc : UInt32) (reason : ExitReason) :
    Walk BlockId := do
  match target with
  | some s =>
    noteEdge s t
    c.blockOf s
  | none => c.exitBlock t (.known pc) reason

/-! ### Starts of blocks -/

/-- Loads every register that the region reads or writes from the guest state. -/
def loadLiveIn (t : RegTable) : Emit RegTable :=
  c.usage.liveIn.foldlM (fun t reg => do
    let raw ← readGuest (reg.loc c.fp)
    let v ← if (reg.ty c.fp).isFloat then cast .bitcast raw (reg.ty c.fp) else pure raw
    t.set c.fp reg v) t

/-- The synthetic entry: loads the registers and goes on at the first block. -/
def enterRegion (t : RegTable) : Walk RegTable := do
  let t ← c.loadLiveIn t
  match c.region.firstBlock? with
  | some first => c.jumpTo first t
  | none => terminate (.jump (← c.exitBlock t (.known c.region.entryAddr) .fallthrough))
  return t

/-- Makes the phis of a block. -/
def addPhis (s : Slot) (b : Region.Block) (t : RegTable) : Walk RegTable := do
  let (t, phis) ← b.phis.foldlM (fun (t, phis) reg => do
    let v ← phi (reg.ty c.fp)
    return (← (t.set c.fp reg v : Emit RegTable), phis ++ [(reg, v)])) (t, ([] : Phis))
  modify fun d => { d with phis := Ascending.put (·.1) (s, phis) d.phis }
  return t

/-- Adds the instructions of a block to the count. -/
def countInstructions (b : Region.Block) (t : RegTable) : Emit RegTable := do
  if c.config.countInstructions && 0 < b.instructionCount then
    let delta ← const .i64 (UInt64.ofNat b.instructionCount)
    return { t with icnt := some (← binary .add (← t.getIcnt) delta) }
  else return t

/-! ### Control transfers -/

/-- The register that holds the target of a register jump, and the register that it links. -/
def jumpOperands : Instr → Option (Gpr × Option Gpr)
  | .jumpReg rs => some (rs, none)
  | .jumpLinkReg rd rs => some (rs, some rd)
  | _ => none

/-- Writes the return address of a transfer at `addr`. -/
def link (r : Gpr) (addr : UInt32) (t : RegTable) : Build RegTable := do
  return t.setGpr r (← word (addr + 8)) (.constant (addr + 8))

/-- The successor for a taken branch. The delay slot of a likely branch is in the patch block on
that edge. -/
def takenSucc (b : Region.Block) (taken : UInt32) (likely : Bool) : Except Breakdown (Option Slot) :=
  if likely then c.findSucc b (·.isPatch) else c.succAt b taken

/-- A conditional branch. -/
def lowerBranch (b : Region.Block) (insn : Instr) (taken notTaken : UInt32) (likely : Bool)
    (delay : RegTable → Emit RegTable) (t : RegTable) : Walk RegTable := do
  let cond ← (lowerCondition t insn : Emit Value)
  let t ← if likely then pure t else delay t
  let takenSucc ← c.takenSucc b taken likely
  let notTakenSucc ← c.succAt b notTaken
  match takenSucc, notTakenSucc with
  | some x, some y =>
    if x = y then
      c.jumpTo x t
      return t
  | _, _ => pure ()
  let ifTrue ← c.edgeTo takenSucc t taken .branchTarget
  let ifFalse ← c.edgeTo notTakenSucc t notTaken (if likely then .likelyUntaken else .fallthrough)
  let weights := if takenSucc.isNone then (5, 95) else (95, 5)
  terminate (.branch cond ifTrue ifFalse (some weights))
  return t

/-- Compares the target of a register jump with the start of each given block in turn. -/
def dispatch (target : Value) (t : RegTable) (slots : List (Slot × UInt32)) : Walk Unit :=
  slots.forM fun (s, entry) => do
    let addr ← word entry
    let hit ← icmp .eq target addr
    let next ← declareBlock "dispatch"
    noteEdge s t
    terminate (.branch hit (← c.blockOf s) next none)
    switchTo next

/-- The successors of a block that are not patch blocks, by entry address. -/
def dispatchTargets (b : Region.Block) : Except Breakdown (List (Slot × UInt32)) := do
  let targets ← b.succs.filterMapM fun s => do
    let t ← c.guestBlock s
    return if t.isPatch then none else some (s, t.entry)
  return targets.mergeSort fun x y => x.2 ≤ y.2

/-- A register jump: to a known target, or to one of the successors, or out of the region. -/
def lowerJumpReg (b : Region.Block) (tr : Transfer) (delay : RegTable → Emit RegTable)
    (t : RegTable) : Walk RegTable := do
  match jumpOperands tr.insn with
  | none => throw (.notLowerable tr.insn)
  | some (rs, rd) =>
    let target ← t.getGpr rs
    let known := if c.config.foldConstants then t.consts.constant? rs else none
    let t ← match rd with
      | some rd => link rd tr.addr t
      | none => pure t
    let t ← delay t
    match known with
    | some addr => terminate (.jump (← c.edgeTo (← c.succAt b addr) t addr .branchTarget))
    | none =>
      c.dispatch target t (← c.dispatchTargets b)
      terminate (.jump (← c.exitBlock t (.held target) .indirectMiss))
    return t

/-- The instruction in the delay slot of a transfer. -/
def delaySlot (b : Region.Block) (tr : Transfer) : Except Breakdown Instr :=
  match b.instrs[tr.index + 1]? with
  | some insn => .ok insn
  | none => .error (.noDelaySlot tr.addr)

/-- The control transfer that ends a block, with its delay slot. -/
def lowerTransfer (b : Region.Block) (tr : Transfer) (t : RegTable) : Walk RegTable := do
  let insn ← delaySlot b tr
  let delay := fun (t : RegTable) => lower c.config.foldConstants t (tr.addr + 4) insn
  match tr.control with
  | .branch taken notTaken likely => c.lowerBranch b tr.insn taken notTaken likely delay t
  | .jump target =>
    let t ← match tr.insn with
      | .jumpLink _ => link .ra tr.addr t
      | _ => pure t
    let t ← delay t
    terminate (.jump (← c.edgeTo (← c.succAt b target) t target .branchTarget))
    return t
  | .jumpReg => c.lowerJumpReg b tr delay t
  | .none => throw (.notLowerable tr.insn)

/-! ### The walk -/

/-- The code of a block other than the synthetic entry, up to where it falls through. -/
def lowerBlock (s : Slot) (b : Region.Block) (t : RegTable) : Walk RegTable := do
  setBlockComment (← c.blockOf s)
    (some s!"guest {Text.hex8 b.entry.toNat}..{Text.hex8 b.exitAddr.toNat}")
  let t ← c.addPhis s b t
  let t ← c.countInstructions b t
  let tr := b.transfer
  let straight := match tr with
    | some tr => b.code.take tr.index
    | none => b.code
  let t ← (straight.foldlM (fun t (word, addr) =>
    lower c.config.foldConstants t addr (decode word)) t : Emit RegTable)
  match tr with
  | some tr => c.lowerTransfer b tr t
  | none => return t

/-- Where a block without a transfer goes on. -/
def lowerFallthrough (b : Region.Block) (t : RegTable) : Walk Unit := do
  match b.fallthrough with
  | some next =>
    let reason := if b.isPatch then ExitReason.branchTarget else .fallthrough
    terminate (.jump (← c.edgeTo (← c.succAt b next) t next reason))
  | none => pure ()

/-- The block in slot `s` and all blocks below it in the dominator tree, to depth `fuel`. -/
def visit : Nat → Slot → RegTable → Walk Unit
  | 0, s, _ => throw (.tooDeep s)
  | fuel + 1, s, t => do
    let b ← c.guestBlock s
    switchTo (← c.blockOf s)
    let t ← if b.isRegionEntry then c.enterRegion t else c.lowerBlock s b t
    let tail := (← get).builder.current
    (c.children s).forM fun child => visit fuel child t
    if !b.isRegionEntry then
      switchTo tail
      c.lowerFallthrough b t

/-- Gives every phi its incoming values from the tables at the sources of the edges into its block.
Conversions go to the end of the sources. -/
def fillPhis : Walk Unit := do
  let d ← get
  d.phis.forM fun (s, phis) =>
    (d.edges.toList.filter (·.target == s)).forM fun e => do
      switchTo e.source
      phis.forM fun (reg, phi) => do
        let v ← (e.table.get c.fp reg : Emit Value)
        addIncoming phi e.source v

end Scope

/-- The function of a region whose dominators, floating-point usage and merges are computed. -/
def generate (r : Region) (usage : Usage) (config : Config) : Except Breakdown Function := do
  let (blocks, builder) := declareBlocks r (.new s!"region_{Text.hexDigits8 r.entryAddr.toNat}")
  let scope : Scope := ⟨r, usage, config, blocks⟩
  let walk : Walk Unit := do
    let zero ← word 0
    scope.visit (r.slots.size + 1) Region.entrySlot (.new zero)
    scope.fillPhis
  let ((), draft) ← walk ⟨builder, [], #[], 0⟩
  return draft.builder.function

end HotRegion.Lowering
