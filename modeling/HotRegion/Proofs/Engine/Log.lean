import HotRegion.Proofs.Engine.Bookkeeping

/-!
# What an engine does in a run

The log of a run lists what the engine does, in order: the regions it runs, the blocks it
interprets and the regions it tries to build. It is computed along with the run. A run is a
sequence of acts, one for each entry of its log.

## Key results

- `acts_of_chain` / `acts_of_run`: a call is the acts of its log, and then the way it ends
- `Acts.counts`: the counters of the engine count the log
-/

namespace HotRegion

open Machine (State Fault Trace)
open Ssa (bind_eq_ok bind_eq_error)

namespace Engine

/-! ## The log -/

/-- Something that an engine does. -/
inductive Event where
  /-- The region is run from the state. -/
  | invoked (region : Compiled) (s : State)
  /-- The block at the state is interpreted and noted with the address that it goes on at. -/
  | interpreted (s : State) (trace : Trace) (next : UInt32)
  /-- A region is tried to build for the entry, from the profile. -/
  | tried (profile : Profile) (entry : UInt32)

/-- The regions that are run one after the other from a state. -/
def chainLog (fuel : Nat) : Nat → Engine → State → List Event
  | 0, _, _ => []
  | count + 1, e, s =>
    match e.cache.use? s.pc with
    | none => []
    | some (region, cache) =>
      .invoked region s ::
        match region.invoke fuel s with
        | .exited exit t =>
          let stats := e.stats.recordRun s.pc exit.reason (t.icnt - s.icnt)
          chainLog fuel count { e with cache := cache, stats := stats } t
        | .stuck _ | .outOfFuel => []

/-- The regions that are run as far as there is compiled code. -/
def compiledLog (fuel : Nat) (e : Engine) (s : State) : List Event :=
  if e.config.enableCompilation then chainLog fuel maxChain e s else []

/-- What an engine does with an interpreted block. -/
def learnLog (e : Engine) (s : State) (trace : Trace) (next : UInt32) : List Event :=
  let noted := e.noted trace next
  .interpreted s trace next ::
    if noted.isDue trace.entry (noted.profile.count trace.entry) then
      [.tried noted.profile trace.entry]
    else []

/-- What an engine does in at most `rounds` rounds. -/
def roundsLog (fuel maxBlocks : Nat) : Nat → Engine → State → Summary → List Event
  | 0, _, _, _ => []
  | rounds + 1, e, s, sum =>
    if maxBlocks ≤ sum.blocks then []
    else
      e.compiledLog fuel s ++
        match e.runCompiled fuel s with
        | .error _ => []
        | .ok c =>
          if 0 < c.invocations then
            roundsLog fuel maxBlocks rounds c.engine c.state
              { sum with
                blocks := sum.blocks + c.invocations
                invocations := sum.invocations + c.invocations }
          else
            match Machine.step Machine.defaultLimit c.state with
            | (.error _, _) => []
            | (.ok trace, t) =>
              c.engine.learnLog c.state trace t.pc ++
                match c.engine.learn trace t.pc with
                | .error _ => []
                | .ok e =>
                  roundsLog fuel maxBlocks rounds e t
                    { sum with blocks := sum.blocks + 1, interpreted := sum.interpreted + 1 }

/-- What an engine does in a run. -/
def runLog (fuel : Nat) (e : Engine) (s : State) (maxBlocks : Nat) : List Event :=
  roundsLog fuel maxBlocks maxBlocks e s {}

/-! ## Acts -/

/-- One act of an engine, with its entry in the log. -/
inductive Act (fuel : Nat) : Engine → State → Event → Engine → State → Prop where
  | invoke {e : Engine} {s t : State} {region : Compiled} {cache : Cache} {exit : Ssa.Exit}
    (hon : e.config.enableCompilation = true) (huse : e.cache.use? s.pc = some (region, cache))
    (hrun : region.invoke fuel s = .exited exit t) :
    Act fuel e s (.invoked region s)
      { e with
        cache := cache
        stats := e.stats.recordRun s.pc exit.reason (t.icnt - s.icnt) } t
  | interpret {e : Engine} {s t : State} {trace : Trace}
    (hstep : Machine.step Machine.defaultLimit s = (.ok trace, t)) :
    Act fuel e s (.interpreted s trace t.pc) (e.noted trace t.pc) t
  | build {e e' : Engine} {s : State} {entry : UInt32} {status : Status}
    (hseen : e.profile.trace? entry ≠ none) (hdue : e.isDue entry (e.profile.count entry) = true)
    (hbuild : e.build entry = .ok (e', status)) :
    Act fuel e s (.tried e.profile entry) e' s

/-- A sequence of acts, with the log of them. -/
inductive Acts (fuel : Nat) : Engine → State → List Event → Engine → State → Prop where
  | none {e : Engine} {s : State} : Acts fuel e s [] e s
  | act {e e₁ e' : Engine} {s s₁ s' : State} {event : Event} {log : List Event}
    (hact : Act fuel e s event e₁ s₁) (hrest : Acts fuel e₁ s₁ log e' s') :
    Acts fuel e s (event :: log) e' s'

/-- The act that an engine breaks down at, with its entry in the log. -/
inductive Breaks (fuel : Nat) : Engine → State → Event → Crash → Prop where
  | stuck {e : Engine} {s : State} {region : Compiled} {cache : Cache} {cause : Ssa.Stuck}
    (huse : e.cache.use? s.pc = some (region, cache)) (hrun : region.invoke fuel s = .stuck cause) :
    Breaks fuel e s (.invoked region s) (.stuck cause)
  | endless {e : Engine} {s : State} {region : Compiled} {cache : Cache}
    (huse : e.cache.use? s.pc = some (region, cache)) (hrun : region.invoke fuel s = .outOfFuel) :
    Breaks fuel e s (.invoked region s) .endless
  | broken {e : Engine} {s : State} {entry : UInt32} {cause : Breakdown}
    (hdue : e.isDue entry (e.profile.count entry) = true) (hbuild : e.build entry = .error cause) :
    Breaks fuel e s (.tried e.profile entry) (.broken cause)

variable {e e' e₁ : Engine} {s s' s₁ : State} {fuel count maxBlocks : Nat} {sum : Summary}
  {log log' : List Event} {crash : Crash}

/-- What an engine does in two parts is what it does in both. -/
theorem Acts.trans (h : Acts fuel e s log e₁ s₁) (h' : Acts fuel e₁ s₁ log' e' s') :
    Acts fuel e s (log ++ log') e' s' := by
  induction h with
  | none => exact h'
  | act hact _ ih => exact .act hact (ih h')

/-- The engine breaks down after some acts, at the last entry of the log. -/
inductive Broke (fuel : Nat) (e : Engine) (s : State) : List Event → Crash → Prop where
  | intro {e₁ : Engine} {s₁ : State} {log : List Event} {event : Event} {cause : Crash}
    (hacts : Acts fuel e s log e₁ s₁) (hbreaks : Breaks fuel e₁ s₁ event cause) :
    Broke fuel e s (log ++ [event]) cause

/-- A run is some acts, after which it has done its blocks, the next block faults or the engine
breaks down. -/
inductive Ends (fuel : Nat) (e : Engine) (s : State) : List Event → Run → Prop where
  | done {e' : Engine} {s' : State} {log : List Event} {sum : Summary}
    (hacts : Acts fuel e s log e' s') : Ends fuel e s log ⟨e', s', .ok sum⟩
  | faults {e' : Engine} {s₁ s' : State} {log : List Event} {fault : Fault}
    (hacts : Acts fuel e s log e' s₁)
    (hstep : Machine.step Machine.defaultLimit s₁ = (.error fault, s')) :
    Ends fuel e s log ⟨e', s', .error (.fault fault)⟩
  | broke {e' : Engine} {s' : State} {log : List Event} {cause : Crash}
    (hbroke : Broke fuel e s log cause) : Ends fuel e s log ⟨e', s', .error (.crash cause)⟩

/-- What breaks down after a first part breaks down as a whole. -/
theorem Acts.broke (h : Acts fuel e s log e₁ s₁) (h' : Broke fuel e₁ s₁ log' crash) :
    Broke fuel e s (log ++ log') crash := by
  obtain ⟨hacts, hbreaks⟩ := h'
  rw [← List.append_assoc]
  exact ⟨h.trans hacts, hbreaks⟩

/-- What ends after a first part ends as a whole. -/
theorem Acts.ends {r : Run} (h : Acts fuel e s log e₁ s₁) (h' : Ends fuel e₁ s₁ log' r) :
    Ends fuel e s (log ++ log') r := by
  cases h' with
  | done hacts => exact .done (h.trans hacts)
  | faults hacts hstep => exact .faults (h.trans hacts) hstep
  | broke hbroke => exact .broke (h.broke hbroke)

/-! ## Calls -/

/-- Regions that are run one after the other are the acts of their log. -/
theorem acts_of_chain (hon : e.config.enableCompilation = true) {c : Chain}
    (h : chain fuel count e s = .ok c) :
    Acts fuel e s (chainLog fuel count e s) c.engine c.state ∧
      c.invocations = (chainLog fuel count e s).length := by
  -- Induction on the invocations that are left. Each of them is one act, and the chain ends where
  -- no region is cached.
  induction count generalizing e s c with
  | zero =>
    cases h
    exact ⟨.none, rfl⟩
  | succ count ih =>
    cases huse : e.cache.use? s.pc with
    | none =>
      simp only [chain, huse] at h
      cases h
      simp only [chainLog, huse]
      exact ⟨.none, rfl⟩
    | some used =>
      obtain ⟨region, cache⟩ := used
      cases hrun : region.invoke fuel s with
      | exited exit t =>
        simp only [chain, huse, hrun] at h
        obtain ⟨rest, hrest, heq⟩ := bind_eq_ok.1 h
        cases heq
        obtain ⟨hacts, hlength⟩ := ih (by exact hon) hrest
        simp only [chainLog, huse, hrun]
        exact ⟨.act (.invoke hon huse hrun) hacts, by rw [hlength, List.length_cons]⟩
      | stuck cause =>
        simp only [chain, huse, hrun] at h
        cases h
      | outOfFuel =>
        simp only [chain, huse, hrun] at h
        cases h

/-- Regions that are run one after the other may break down. -/
theorem broke_of_chain (hon : e.config.enableCompilation = true)
    (h : chain fuel count e s = .error crash) :
    Broke fuel e s (chainLog fuel count e s) crash := by
  -- Induction on the invocations that are left: all but the last one return.
  induction count generalizing e s with
  | zero => cases h
  | succ count ih =>
    cases huse : e.cache.use? s.pc with
    | none =>
      simp only [chain, huse] at h
      cases h
    | some used =>
      obtain ⟨region, cache⟩ := used
      cases hrun : region.invoke fuel s with
      | exited exit t =>
        simp only [chain, huse, hrun] at h
        simp only [chainLog, huse, hrun]
        rcases bind_eq_error.1 h with h | ⟨_, -, h⟩
        · exact (Acts.act (.invoke hon huse hrun) .none).broke (ih (by exact hon) h)
        · cases h
      | stuck cause =>
        simp only [chain, huse, hrun] at h
        cases h
        simp only [chainLog, huse, hrun]
        exact .intro .none (.stuck huse hrun)
      | outOfFuel =>
        simp only [chain, huse, hrun] at h
        cases h
        simp only [chainLog, huse, hrun]
        exact .intro .none (.endless huse hrun)

/-- Compiled code that returns is the acts of its log. -/
theorem acts_of_runCompiled {c : Chain} (h : e.runCompiled fuel s = .ok c) :
    Acts fuel e s (e.compiledLog fuel s) c.engine c.state ∧
      c.invocations = (e.compiledLog fuel s).length := by
  unfold runCompiled at h
  unfold compiledLog
  split at h
  · next hon =>
    rw [if_pos hon]
    exact acts_of_chain hon h
  · next hoff =>
    cases h
    rw [if_neg hoff]
    exact ⟨.none, rfl⟩

/-- Compiled code that crashes leaves its log. -/
theorem broke_of_runCompiled (h : e.runCompiled fuel s = .error crash) :
    Broke fuel e s (e.compiledLog fuel s) crash := by
  unfold runCompiled at h
  unfold compiledLog
  split at h
  · next hon =>
    rw [if_pos hon]
    exact broke_of_chain hon h
  · cases h

/-- An interpreted block is noted, and its region is built if that is due. -/
theorem acts_of_learn {trace : Trace}
    (hstep : Machine.step Machine.defaultLimit s = (.ok trace, s'))
    (h : e.learn trace s'.pc = .ok e') :
    Acts fuel e s (e.learnLog s trace s'.pc) e' s' := by
  unfold learnLog
  unfold learn at h
  -- Interpreting is one event. If the block is due then, building is the next one.
  refine .act (.interpret hstep) ?_
  change (if (e.noted trace s'.pc).isDue trace.entry
    ((e.noted trace s'.pc).profile.count trace.entry) then _ else _) = _ at h
  split at h
  · next hdue =>
    rw [if_pos hdue]
    change ((e.noted trace s'.pc).build trace.entry).map (·.1) = .ok e' at h
    cases hbuild : (e.noted trace s'.pc).build trace.entry with
    | error cause =>
      rw [hbuild] at h
      cases h
    | ok built =>
      rw [hbuild] at h
      cases h
      exact .act (.build (noted_seen e trace s'.pc) hdue hbuild) .none
  · next hdue =>
    rw [if_neg hdue]
    cases h
    exact .none

/-- A build that breaks down leaves its log. -/
theorem broke_of_learn {trace : Trace} {cause : Breakdown}
    (hstep : Machine.step Machine.defaultLimit s = (.ok trace, s'))
    (h : e.learn trace s'.pc = .error cause) :
    Broke fuel e s (e.learnLog s trace s'.pc) (.broken cause) := by
  unfold learnLog
  unfold learn at h
  change (if (e.noted trace s'.pc).isDue trace.entry
    ((e.noted trace s'.pc).profile.count trace.entry) then _ else _) = _ at h
  dsimp only
  split at h
  · next hdue =>
    rw [if_pos hdue]
    change ((e.noted trace s'.pc).build trace.entry).map (·.1) = .error cause at h
    cases hbuild : (e.noted trace s'.pc).build trace.entry with
    | error cause' =>
      rw [hbuild] at h
      cases h
      exact .intro (.act (.interpret hstep) .none) (.broken hdue hbuild)
    | ok built =>
      rw [hbuild] at h
      cases h
  · cases h

/-- A run is the acts of its log, and then the way it ends. -/
theorem ends_of_runRounds {rounds : Nat} :
    Ends fuel e s (roundsLog fuel maxBlocks rounds e s sum)
      (runRounds fuel maxBlocks rounds e s sum) := by
  -- Induction on the rounds. A round in which no region runs is one step of the interpreter and
  -- what is learned from it.
  induction rounds generalizing e s sum with
  | zero => exact .done .none
  | succ rounds ih =>
    unfold roundsLog runRounds
    by_cases henough : maxBlocks ≤ sum.blocks
    · simp only [henough, if_true]
      exact .done .none
    simp only [henough, if_false]
    cases hrun : e.runCompiled fuel s with
    | error cause =>
      simp only [List.append_nil]
      exact .broke (broke_of_runCompiled hrun)
    | ok c =>
      obtain ⟨hacts, hlength⟩ := acts_of_runCompiled hrun
      refine hacts.ends ?_
      by_cases hpos : 0 < c.invocations
      · simp only [hpos, if_true]
        exact ih
      simp only [hpos, if_false]
      rcases hstep : Machine.step Machine.defaultLimit c.state with ⟨fault | trace, t⟩
      · exact .faults .none hstep
      · dsimp only
        cases hlearn : c.engine.learn trace t.pc with
        | error cause =>
          simp only [List.append_nil]
          exact .broke (broke_of_learn hstep hlearn)
        | ok e₂ => exact (acts_of_learn hstep hlearn).ends ih

/-- Every run ends or breaks down as its log says. -/
theorem ends_of_run : Ends fuel e s (e.runLog fuel s maxBlocks) (e.run fuel s maxBlocks) :=
  ends_of_runRounds

/-- A run that returns is the acts of its log, up to a block that faults. -/
theorem acts_of_run
    (hreturn : ∀ cause, (e.run fuel s maxBlocks).outcome ≠ .error (.crash cause)) :
    ∃ s₁, Acts fuel e s (e.runLog fuel s maxBlocks) (e.run fuel s maxBlocks).engine s₁ := by
  have hends : Ends fuel e s (e.runLog fuel s maxBlocks) (e.run fuel s maxBlocks) := ends_of_run
  cases hrun : e.run fuel s maxBlocks with | mk engine state outcome =>
  rw [hrun] at hends hreturn
  cases hends with
  | done hacts => exact ⟨_, hacts⟩
  | faults hacts _ => exact ⟨_, hacts⟩
  | broke _ => exact absurd rfl (hreturn _)

/-! ## Counters -/

def Event.isInvoked : Event → Bool
  | invoked .. => true
  | _ => false

def Event.isInterpreted : Event → Bool
  | interpreted .. => true
  | _ => false

def Event.isTried : Event → Bool
  | tried .. => true
  | _ => false

/-- The counters of the engine count the log. -/
theorem Acts.counts (h : Acts fuel e s log e' s') :
    e'.stats.invocations = e.stats.invocations + log.countP Event.isInvoked ∧
      e'.stats.interpreted = e.stats.interpreted + log.countP Event.isInterpreted ∧
      e'.stats.attempts = e.stats.attempts + log.countP Event.isTried := by
  induction h with
  | none => exact ⟨rfl, rfl, rfl⟩
  | act hact _ ih =>
    obtain ⟨hinvoked, hinterpreted, htried⟩ := ih
    rw [hinvoked, hinterpreted, htried, List.countP_cons, List.countP_cons, List.countP_cons]
    cases hact with
    | invoke => simp [Event.isInvoked, Event.isInterpreted, Event.isTried, Stats.recordRun]; omega
    | interpret => simp [Event.isInvoked, Event.isInterpreted, Event.isTried, noted]; omega
    | build _ _ hbuild =>
      obtain ⟨_, -, -, rfl⟩ | ⟨_, -, -, ⟨-, rfl⟩ | ⟨-, rfl⟩⟩ := build_cases hbuild <;>
        simp [Event.isInvoked, Event.isInterpreted, Event.isTried] <;> omega

end Engine

end HotRegion
