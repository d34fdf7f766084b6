import HotRegion.Cache
import HotRegion.Machine.Step
import HotRegion.Stats

/-! # The execution engine

The engine runs compiled regions where there are some and interprets everywhere else. It records
every interpreted block and builds a region from a block once that has run often enough. -/

namespace HotRegion

open Machine (State Fault)
open Ssa (ExitReason)

/-- An engine with what it has learned and built so far. -/
structure Engine where
  config : Config
  backend : Backend
  profile : Profile
  cache : Cache
  stats : Stats

/-- The build outcome of a region. -/
inductive Status where
  | ready
  | failed (error : CompileError)
  deriving DecidableEq

/-- Why an engine cannot go on although the guest could. -/
inductive Crash where
  /-- Building a region broke down. -/
  | broken (cause : Breakdown)
  /-- Compiled code broke a rule. -/
  | stuck (cause : Ssa.Stuck)
  /-- Compiled code did not exit within the blocks it was given. -/
  | endless
  deriving DecidableEq

def Crash.message : Crash → String
  | broken cause => cause.message
  | stuck cause => cause.message
  | endless => "compiled code did not exit"

/-- Why a run ends early. -/
inductive Stop where
  | fault (fault : Fault)
  | crash (cause : Crash)
  deriving DecidableEq

/-- What a run did. -/
structure Summary where
  /-- Blocks and runs of regions that count towards the limit of the run. -/
  blocks : Nat := 0
  /-- Blocks that were interpreted. -/
  interpreted : Nat := 0
  /-- Runs of compiled regions. -/
  invocations : Nat := 0
  deriving DecidableEq

/-- Regions run one after the other: the engine and the state after them. -/
structure Chain where
  engine : Engine
  state : State
  invocations : Nat
  lastExit : Option ExitReason

/-- The end of a run: the engine and the state, and what the run did or why it ended early. -/
structure Run where
  engine : Engine
  state : State
  outcome : Except Stop Summary

namespace Engine

/-- The number of regions run at most without looking at anything else. -/
def maxChain : Nat := 64

def new (config : Config) (backend : Backend) : Engine where
  config := config
  backend := backend
  profile := .empty
  cache := .new config.cacheCapacity
  stats := {}

/-- The outcome of building the region entered at `addr`, if that is still known. -/
def status? (e : Engine) (addr : UInt32) : Option Status :=
  if e.cache.contains addr then some .ready else (e.cache.failure? addr).map .failed

/-! ### Building regions -/

/-- Builds the region entered at `entry` from what was recorded so far. An entry that was not
recorded yet is not remembered as failed. -/
def build (e : Engine) (entry : UInt32) : Except Breakdown (Engine × Status) :=
  let tried := { e.stats with attempts := e.stats.attempts + 1 }
  match compile e.config e.backend e.profile entry with
  | .ok region =>
    let (cache, evicted) := e.cache.insert region
    let stats := { tried with
      compiled := tried.compiled + 1
      evictions := tried.evictions + evicted.toList.length }
    .ok ({ e with cache := cache, stats := stats }, .ready)
  | .error (.refused error) =>
    if error.isTransient then .ok ({ e with stats := tried }, .failed error)
    else
      .ok ({ e with
        cache := e.cache.markFailed entry error
        stats := { tried with failed := tried.failed + 1 } }, .failed error)
  | .error (.broken cause) => .error cause

/-- A block that ran `count` times is due for its region to be built. -/
def isDue (e : Engine) (entry : UInt32) (count : Nat) : Bool :=
  e.config.enableCompilation && e.config.hotThreshold.toNat ≤ count &&
    !e.cache.contains entry && !e.cache.isFailed entry

/-! ### Compiled code -/

/-- Runs the region at the program counter and the regions that its exits lead to, at most `count`
of them and each for at most `fuel` blocks of its function. -/
def chain (fuel : Nat) : Nat → Engine → State → Except Crash Chain
  | 0, e, s => .ok ⟨e, s, 0, none⟩
  | count + 1, e, s =>
    match e.cache.use? s.pc with
    | none => .ok ⟨e, s, 0, none⟩
    | some (region, cache) =>
      match region.invoke fuel s with
      | .exited exit t => do
        let stats := e.stats.recordRun s.pc exit.reason (t.icnt - s.icnt)
        let rest ← chain fuel count { e with cache := cache, stats := stats } t
        return { rest with
          invocations := rest.invocations + 1
          lastExit := rest.lastExit <|> some exit.reason }
      | .stuck cause => .error (.stuck cause)
      | .outOfFuel => .error .endless

/-- Runs compiled code as far as there is some. -/
def runCompiled (fuel : Nat) (e : Engine) (s : State) : Except Crash Chain :=
  if e.config.enableCompilation then chain fuel maxChain e s else .ok ⟨e, s, 0, none⟩

/-- Runs compiled code, and tells whether the last region left by an ordinary transfer. If not, or
if there is no compiled code, the caller has to interpret. -/
def tryExecute (fuel : Nat) (e : Engine) (s : State) : Except Crash (Engine × State × Bool) := do
  let c ← e.runCompiled fuel s
  return (c.engine, c.state, c.lastExit.any (!·.isDeopt))

/-! ### Runs -/

/-- Notes an interpreted block and builds its region when that is due. -/
def learn (e : Engine) (trace : Machine.Trace) (next : UInt32) : Except Breakdown Engine :=
  let profile := e.profile.record trace next
  let e := { e with
    profile := profile
    stats := { e.stats with interpreted := e.stats.interpreted + 1 } }
  if e.isDue trace.entry (profile.count trace.entry) then
    (e.build trace.entry).map (·.1)
  else .ok e

/-- Runs until `maxBlocks` blocks are done, in at most `rounds` rounds: compiled code as far as
there is some, or else one interpreted block. -/
def runRounds (fuel maxBlocks : Nat) : Nat → Engine → State → Summary → Run
  | 0, e, s, sum => ⟨e, s, .ok sum⟩
  | rounds + 1, e, s, sum =>
    if maxBlocks ≤ sum.blocks then ⟨e, s, .ok sum⟩
    else
      match e.runCompiled fuel s with
      | .error cause => ⟨e, s, .error (.crash cause)⟩
      | .ok c =>
        if 0 < c.invocations then
          runRounds fuel maxBlocks rounds c.engine c.state
            { sum with
              blocks := sum.blocks + c.invocations
              invocations := sum.invocations + c.invocations }
        else
          match Machine.step Machine.defaultLimit c.state with
          | (.error fault, t) => ⟨c.engine, t, .error (.fault fault)⟩
          | (.ok trace, t) =>
            match c.engine.learn trace t.pc with
            | .error cause => ⟨c.engine, t, .error (.crash (.broken cause))⟩
            | .ok e =>
              runRounds fuel maxBlocks rounds e t
                { sum with blocks := sum.blocks + 1, interpreted := sum.interpreted + 1 }

/-- Runs the guest until `maxBlocks` blocks were interpreted or regions run, or until it faults.
Every round does at least one block. -/
def run (fuel : Nat) (e : Engine) (s : State) (maxBlocks : Nat) : Run :=
  runRounds fuel maxBlocks maxBlocks e s {}

end Engine

end HotRegion
