import HotRegion.Proofs.Engine.Log
import HotRegion.Proofs.Profile

/-!
# Failed entries

An entry whose region cannot be compiled stays interpreted: as long as the client only runs the
engine, the error stays on record, no region with that entry is cached or run, and none is tried to
build again. Every act of the engine keeps this up, so every sequence of calls does.

## Key results

- `Engine.Act.failed`: an act forgets no failure and has nothing to do with a failed entry
- `Engine.failed_stays`: the same of every sequence of calls
-/

namespace HotRegion

open Machine (State)
open Ssa (bind_eq_ok)

namespace Cache

variable {c c' : Cache} {r : Compiled} {addr entry : UInt32} {error error' : CompileError}

/-- The error of an address is the one that it is marked with. -/
theorem Sound.failure?_eq_some_iff (h : c.Sound) :
    c.failure? addr = some error ↔ (addr, error) ∈ c.failed :=
  Ascending.lookup_eq_some_iff h.sorted

/-- An address that is marked has no region. -/
theorem Sound.not_contains (h : c.Sound) (hfailed : c.failure? addr = some error) :
    c.contains addr = false := by
  have hmem := h.failure?_eq_some_iff.1 hfailed
  simpa [contains] using h.disjoint _ hmem

/-- There is no region to use where the cache has none. -/
theorem use?_eq_none (h : c.contains addr = false) : c.use? addr = none := by
  have hall : ∀ r ∈ c.regions, ¬ (r.entry == addr) = true := by
    intro r hr heq
    have hmem : addr ∈ c.entries := List.mem_map.2 ⟨r, hr, by simpa using heq⟩
    rw [contains_iff.2 hmem] at h
    cases h
  rw [use?, List.find?_eq_none.2 hall]
  rfl

/-- Adding a region forgets the failure of its own entry only. -/
theorem Sound.failure?_insert (h : c.Sound) (hpos : c.capacity ≠ 0)
    (hfailed : c.failure? addr = some error) (hne : r.entry ≠ addr) :
    (c.insert r).1.failure? addr = some error := by
  obtain ⟨hsound, -, heq, -⟩ := h.insert hpos r
  rw [hsound.failure?_eq_some_iff, heq]
  refine List.mem_filter.2 ⟨h.failure?_eq_some_iff.1 hfailed, ?_⟩
  simpa using hne.symm

/-- A new failure takes the place of one of its own entry only. -/
theorem Sound.failure?_markFailed (h : c.Sound) (hfailed : c.failure? addr = some error)
    (hne : entry ≠ addr) : (c.markFailed entry error').failure? addr = some error := by
  have hput := Ascending.lookup_put (fun _ _ => UInt32.toNat_inj.1) h.sorted entry error' addr
  rw [if_neg hne.symm] at hput
  exact hput.trans hfailed

end Cache

namespace Engine

variable {e e' e'' : Engine} {s s' : State} {fuel : Nat} {direct : Bool} {unseen : Nat}
  {addr : UInt32} {error : CompileError} {event : Event} {log log' : List Event}

/-- The event is a run of a region entered at `addr` or a try to build one. -/
def Event.Concerns (addr : UInt32) : Event → Prop
  | invoked region _ => region.entry = addr
  | interpreted .. => False
  | tried _ entry => entry = addr

/-! ## Acts -/

/-- A region that is due is neither cached nor failed. -/
theorem isDue_spec {entry : UInt32} {count : Nat} (hdue : e.isDue entry count = true) :
    entry ∉ e.cache.entries ∧ e.cache.isFailed entry = false := by
  simp only [isDue, Bool.and_eq_true, Bool.not_eq_true'] at hdue
  refine ⟨?_, hdue.2⟩
  rw [← Cache.contains_iff, hdue.1.2]
  exact Bool.false_ne_true

/-- An address that failed is never due. -/
theorem ne_of_isDue (hfailed : e.cache.failure? addr = some error) {entry : UInt32} {count : Nat}
    (hdue : e.isDue entry count = true) : entry ≠ addr := by
  rintro rfl
  have hnofail := (isDue_spec hdue).2
  rw [Cache.isFailed, hfailed] at hnofail
  cases hnofail

/-- A region that is used was entered at an address that has not failed. -/
theorem entry_ne_of_use? (h : e.Kept direct unseen) (hfailed : e.cache.failure? addr = some error)
    {region : Compiled} {cache : Cache} (huse : e.cache.use? s.pc = some (region, cache)) :
    region.entry ≠ addr := by
  obtain ⟨hentry, -⟩ := Cache.use?_perm h.cache huse
  rw [hentry]
  intro heq
  rw [heq, Cache.use?_eq_none (h.cache.not_contains hfailed)] at huse
  cases huse

/-- An act keeps the books. -/
theorem Kept.act (h : e.Kept direct unseen) (hact : Act fuel e s event e' s') :
    e'.Kept direct unseen := by
  cases hact with
  | invoke _ huse _ => exact h.use huse _ _
  | interpret => exact ⟨h.cache, h.capacity, h.exits, h.evictions, h.attempts, h.own⟩
  | build hseen hdue hbuild =>
    obtain ⟨hnew, hnofail⟩ := isDue_spec hdue
    have hkept := h.build hbuild fun _ => ⟨hnew, hnofail, hseen⟩
    rw [isUnseen_of_seen hbuild hseen] at hkept
    exact hkept

/-- An act forgets no failure and has nothing to do with a failed entry. -/
theorem Act.failed (hact : Act fuel e s event e' s') (h : e.Kept direct unseen)
    (hfailed : e.cache.failure? addr = some error) :
    e'.cache.failure? addr = some error ∧ ¬ event.Concerns addr := by
  cases hact with
  | invoke _ huse _ =>
    obtain ⟨-, -, hkept, -⟩ := Cache.use?_perm h.cache huse
    exact ⟨(congrArg (List.lookup addr) hkept).trans hfailed, entry_ne_of_use? h hfailed huse⟩
  | interpret => exact ⟨hfailed, id⟩
  | build _ hdue hbuild =>
    have hne := ne_of_isDue hfailed hdue
    refine ⟨?_, hne⟩
    obtain ⟨region, hcompile, -, rfl⟩ | ⟨_, -, -, ⟨-, rfl⟩ | ⟨-, rfl⟩⟩ := build_cases hbuild
    · rw [← compile_entry hcompile] at hne
      exact h.cache.failure?_insert (h.capacity ▸ e.config.cacheCapacity_ne) hfailed hne
    · exact hfailed
    · exact h.cache.failure?_markFailed hfailed hne

/-- A crash of compiled code is none of an address that failed. -/
theorem Breaks.failed {crash : Crash} (hbreaks : Breaks fuel e s event crash)
    (h : e.Kept direct unseen) (hfailed : e.cache.failure? addr = some error) :
    ¬ event.Concerns addr := by
  cases hbreaks with
  | stuck huse _ => exact entry_ne_of_use? h hfailed huse
  | endless huse _ => exact entry_ne_of_use? h hfailed huse
  | broken hdue _ => exact ne_of_isDue hfailed hdue

/-- Acts forget no failure and have nothing to do with a failed entry. -/
theorem Acts.failed (hacts : Acts fuel e s log e' s') (h : e.Kept direct unseen)
    (hfailed : e.cache.failure? addr = some error) :
    e'.Kept direct unseen ∧ e'.cache.failure? addr = some error ∧
      ∀ event ∈ log, ¬ event.Concerns addr := by
  induction hacts with
  | none => exact ⟨h, hfailed, nofun⟩
  | act hact _ ih =>
    obtain ⟨hfailed, hevent⟩ := hact.failed h hfailed
    obtain ⟨hkept, hfailed, hlog⟩ := ih (h.act hact) hfailed
    exact ⟨hkept, hfailed, List.forall_mem_cons.2 ⟨hevent, hlog⟩⟩

/-- A run that breaks down does nothing at an address that failed before. -/
theorem Broke.failed {crash : Crash} (hbroke : Broke fuel e s log crash) (h : e.Kept direct unseen)
    (hfailed : e.cache.failure? addr = some error) : ∀ event ∈ log, ¬ event.Concerns addr := by
  obtain ⟨hacts, hbreaks⟩ := hbroke
  obtain ⟨hkept, hfailed, hlog⟩ := hacts.failed h hfailed
  intro event hevent
  rcases List.mem_append.1 hevent with hevent | hevent
  · exact hlog event hevent
  · rw [List.mem_singleton.1 hevent]
    exact hbreaks.failed hkept hfailed

/-- A run that ends does nothing at an address that failed before. -/
theorem Ends.failed {r : Run} (hends : Ends fuel e s log r) (h : e.Kept direct unseen)
    (hfailed : e.cache.failure? addr = some error) : ∀ event ∈ log, ¬ event.Concerns addr := by
  cases hends with
  | done hacts => exact (hacts.failed h hfailed).2.2
  | faults hacts _ => exact (hacts.failed h hfailed).2.2
  | broke hbroke => exact hbroke.failed h hfailed

/-! ## Calls -/

/-- No run that starts with the failure on record concerns the failed entry, whether it returns or
not. One that returns leaves the failure on record. -/
theorem run_failed (h : e.Kept direct unseen) (hfailed : e.cache.failure? addr = some error)
    (fuel : Nat) (s : State) (maxBlocks : Nat) :
    (∀ event ∈ e.runLog fuel s maxBlocks, ¬ event.Concerns addr) ∧
      ((∀ cause, (e.run fuel s maxBlocks).outcome ≠ .error (.crash cause)) →
        (e.run fuel s maxBlocks).engine.cache.failure? addr = some error) := by
  refine ⟨ends_of_run.failed h hfailed, fun hreturn => ?_⟩
  obtain ⟨s₁, hacts⟩ := acts_of_run hreturn
  exact (hacts.failed h hfailed).2.1

/-- Compiled code does nothing at an address that failed, and leaves the mark. -/
theorem runCompiled_failed (h : e.Kept direct unseen) (hfailed : e.cache.failure? addr = some error)
    (fuel : Nat) (s : State) :
    (∀ event ∈ e.compiledLog fuel s, ¬ event.Concerns addr) ∧
      ∀ c, e.runCompiled fuel s = .ok c → c.engine.cache.failure? addr = some error := by
  cases hrun : e.runCompiled fuel s with
  | error crash => exact ⟨(broke_of_runCompiled hrun).failed h hfailed, fun _ h => by cases h⟩
  | ok c =>
    obtain ⟨-, hfailed, hlog⟩ := (acts_of_runCompiled hrun).1.failed h hfailed
    exact ⟨hlog, by rintro _ ⟨⟩; exact hfailed⟩

/-- Calls that run an engine and return, with the log of what it does in them. -/
inductive Calls (e : Engine) : List Event → Engine → Prop where
  | none : Calls e [] e
  | run {log : List Event} {e' : Engine} (h : Calls e log e') (fuel : Nat) (s : State)
    (maxBlocks : Nat)
    (hreturn : ∀ cause, (e'.run fuel s maxBlocks).outcome ≠ .error (.crash cause)) :
    Calls e (log ++ e'.runLog fuel s maxBlocks) (e'.run fuel s maxBlocks).engine
  | tryExecute {log : List Event} {e' e'' : Engine} (h : Calls e log e') {fuel : Nat}
    {s s' : State} {left : Bool} (hreturn : e'.tryExecute fuel s = .ok (e'', s', left)) :
    Calls e (log ++ e'.compiledLog fuel s) e''

/-- Calls of the engine keep its books right. -/
theorem Kept.calls (h : e.Kept direct unseen) (hcalls : Calls e log e') :
    e'.Kept direct unseen := by
  induction hcalls with
  | none => exact h
  | run _ _ _ _ hreturn ih => exact ih.run hreturn
  | tryExecute _ hreturn ih =>
    obtain ⟨c, hrun, heq⟩ := bind_eq_ok.1 hreturn
    cases heq
    exact (ih.runCompiled hrun).1

/-- Calls forget no failure and have nothing to do with a failed entry. -/
theorem Calls.failed (hcalls : Calls e log e') (h : e.Kept direct unseen)
    (hfailed : e.cache.failure? addr = some error) :
    e'.cache.failure? addr = some error ∧ ∀ event ∈ log, ¬ event.Concerns addr := by
  induction hcalls with
  | none => exact ⟨hfailed, nofun⟩
  | run hcalls fuel s maxBlocks hreturn ih =>
    obtain ⟨hfailed, hlog⟩ := ih
    obtain ⟨hmore, hkept⟩ := run_failed (h.calls hcalls) hfailed fuel s maxBlocks
    exact ⟨hkept hreturn, List.forall_mem_append.2 ⟨hlog, hmore⟩⟩
  | tryExecute hcalls hreturn ih =>
    obtain ⟨hfailed, hlog⟩ := ih
    obtain ⟨c, hrun, heq⟩ := bind_eq_ok.1 hreturn
    cases heq
    obtain ⟨hmore, hkept⟩ := runCompiled_failed (h.calls hcalls) hfailed _ _
    exact ⟨hkept c hrun, List.forall_mem_append.2 ⟨hlog, hmore⟩⟩

/-- The counters of the engine count the log of its calls. -/
theorem Calls.counts (hcalls : Calls e log e') :
    e'.stats.invocations = e.stats.invocations + log.countP Event.isInvoked ∧
      e'.stats.attempts = e.stats.attempts + log.countP Event.isTried := by
  induction hcalls with
  | none => exact ⟨rfl, rfl⟩
  | run _ fuel s maxBlocks hreturn ih =>
    obtain ⟨s₁, hacts⟩ := acts_of_run hreturn
    obtain ⟨hinvoked, -, htried⟩ := hacts.counts
    rw [hinvoked, htried, ih.1, ih.2, List.countP_append, List.countP_append]
    omega
  | tryExecute _ hreturn ih =>
    obtain ⟨c, hrun, heq⟩ := bind_eq_ok.1 hreturn
    cases heq
    obtain ⟨hinvoked, -, htried⟩ := (acts_of_runCompiled hrun).1.counts
    rw [hinvoked, htried, ih.1, ih.2, List.countP_append, List.countP_append]
    omega

/-- There is no compiled code to run at a failed entry. -/
theorem tryExecute_failed (h : e.Kept direct unseen) (hfailed : e.cache.failure? s.pc = some error)
    (fuel : Nat) : e.tryExecute fuel s = .ok (e, s, false) := by
  have hnone : e.cache.use? s.pc = none := Cache.use?_eq_none (h.cache.not_contains hfailed)
  have hrun : e.runCompiled fuel s = .ok ⟨e, s, 0, none⟩ := by
    unfold runCompiled
    split
    · rw [maxChain, chain, hnone]
    · rfl
  rw [tryExecute, hrun]
  rfl

/-- Once building the region of an entry has failed for an engine that its client only runs, the
error stays on record after every later call. No region with that entry is cached or run, and none
is tried to build, in calls that return and in a call that does not: the logs, which the counters
count, have no such event. Running compiled code at the entry does nothing. -/
theorem failed_stays {config : Config} {backend : Backend}
    (hbefore : Calls (.new config backend) log e) (hfailed : e.cache.failure? addr = some error)
    (hafter : Calls e log' e') :
    e'.cache.failure? addr = some error ∧ e'.cache.isFailed addr = true ∧
      e'.cache.contains addr = false ∧
      (∀ event ∈ log', ¬ event.Concerns addr) ∧
      (∀ fuel s maxBlocks, ∀ event ∈ e'.runLog fuel s maxBlocks, ¬ event.Concerns addr) ∧
      (∀ fuel s, ∀ event ∈ e'.compiledLog fuel s, ¬ event.Concerns addr) ∧
      e'.stats.invocations = e.stats.invocations + log'.countP Event.isInvoked ∧
      e'.stats.attempts = e.stats.attempts + log'.countP Event.isTried ∧
      ∀ fuel s, s.pc = addr → e'.tryExecute fuel s = .ok (e', s, false) := by
  have hkept := (kept_new config backend).calls hbefore
  obtain ⟨hfailed, hlog⟩ := hafter.failed hkept hfailed
  obtain ⟨hinvoked, htried⟩ := hafter.counts
  replace hkept := hkept.calls hafter
  refine ⟨hfailed, by rw [Cache.isFailed, hfailed]; rfl, hkept.cache.not_contains hfailed, hlog,
    fun fuel s maxBlocks => (run_failed hkept hfailed fuel s maxBlocks).1,
    fun fuel s => (runCompiled_failed hkept hfailed fuel s).1, hinvoked, htried, ?_⟩
  rintro fuel s rfl
  exact tryExecute_failed hkept hfailed fuel

/-- A loop with an addition that traps on overflow, which is interpreted only. -/
def trappingLoop : State :=
  .initial (Profile.countdownState.mem.loadWords 0x20 [0x01284820, 0x1000fffe, 0]) 0x20

/-- An engine that builds a region from every block. -/
def eager : Engine := .new ⟨{ hotThreshold := 1 }, by decide, by decide, by decide⟩ .eval

/-- The region of the loop fails in the first run and stays interpreted in the second one. -/
theorem failed_stays_trappingLoop : ∃ e e' log,
    e = (eager.run 0 trappingLoop 1).engine ∧ e' = (e.run 0 trappingLoop 3).engine ∧
      e.cache.failure? 0x20 = some (.unsupported 0x20 (Isa.decode 0x01284820)) ∧
      Calls e log e' ∧ log.length = 3 ∧ (∀ event ∈ log, ¬ event.Concerns 0x20) ∧
      e'.tryExecute 0 trappingLoop = .ok (e', trappingLoop, false) := by
  have hbefore : Calls eager _ (eager.run 0 trappingLoop 1).engine :=
    .run .none 0 trappingLoop 1 (returns_of_isOk (by decide +kernel))
  have hfailed : (eager.run 0 trappingLoop 1).engine.cache.failure? 0x20 =
      some (.unsupported 0x20 (Isa.decode 0x01284820)) := by decide +kernel
  have hafter : Calls (eager.run 0 trappingLoop 1).engine _ _ :=
    .run .none 0 trappingLoop 3 (returns_of_isOk (by decide +kernel))
  have hlength : (runLog 0 (eager.run 0 trappingLoop 1).engine trappingLoop 3).length = 3 := by
    decide +kernel
  obtain ⟨-, -, -, hlog, -, -, -, -, hnothing⟩ := failed_stays hbefore hfailed hafter
  refine ⟨_, _, _, rfl, rfl, hfailed, hafter, ?_, hlog, hnothing 0 trappingLoop rfl⟩
  rw [List.nil_append, hlength]

end Engine

end HotRegion
