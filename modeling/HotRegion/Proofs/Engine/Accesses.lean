import HotRegion.Proofs.Compile.Refinement
import HotRegion.Proofs.Engine.Sources
import HotRegion.Proofs.Machine.Accesses

/-!
# What a run does with memory

The words of the blocks that an engine interprets go into its profile, and from there into the
regions that it builds, which do not fetch them again. The accesses of a run list the words that are
fetched, the instructions that are interpreted and all stores, those of compiled regions included.
The function of a region that is run is found again in the log: it was built from the profile that
its entry was tried with last.

## Key results

- `Engine.Ends.fetched`: all that a run fetches is recorded in it
- `Engine.Act.sourced`: regions in the cache were built from what was recorded, and the log has where
  they come from
-/

namespace HotRegion

open Machine (State Access Store)
open Region (Block entryMark)
open Ssa (Watched)

namespace Engine

variable {config : Config} {fuel : Nat} {e e' : Engine} {s s' : State} {event : Event}
  {past log : List Event} {region : Compiled}

/-! ## Accesses -/

/-- The profile that a region was last tried to build from for the entry. The latest event of the
past comes first. -/
def source? : List Event → UInt32 → Option Profile
  | [], _ => none
  | .tried profile tried :: past, entry => if tried = entry then some profile else source? past entry
  | _ :: past, entry => source? past entry

/-- The function of the region that is built from the profile for the entry. -/
def function? (config : Config) (profile : Profile) (entry : UInt32) : Option Ssa.Function := do
  let p ← (prepare config profile entry).toOption
  (p.generate config).toOption

/-- The stores of the region at the program counter, as it was built last. -/
def regionStores (config : Config) (fuel : Nat) (past : List Event) (s : State) : List Store :=
  ((source? past s.pc).bind fun profile => function? config profile s.pc).elim [] fun f =>
    (Ssa.run fuel f (⟨s, []⟩ : Watched)).stores

/-- The accesses of an event after those of the past. -/
def Event.accesses (config : Config) (fuel : Nat) (past : List Event) : Event → List Access
  | .invoked _ s => (regionStores config fuel past s).map .store
  | .interpreted s _ _ => Machine.accesses Machine.defaultLimit s
  | .tried .. => []

/-- The accesses of events one after the other. -/
def logAccesses (config : Config) (fuel : Nat) : List Event → List Event → List Access
  | _, [] => []
  | past, event :: log =>
    event.accesses config fuel past ++ logAccesses config fuel (event :: past) log

/-- The accesses of a run of a new engine. -/
def runAccesses (config : Config) (fuel : Nat) (s : State) (maxBlocks : Nat) : List Access :=
  logAccesses config fuel [] ((new config .eval).runLog fuel s maxBlocks)

/-- The accesses of a log are those of its parts. -/
theorem logAccesses_append (past log log' : List Event) :
    logAccesses config fuel past (log ++ log') =
      logAccesses config fuel past log ++ logAccesses config fuel (log.reverse ++ past) log' := by
  induction log generalizing past with
  | nil => rfl
  | cons event log ih => simp [logAccesses, ih]

/-- Compiled code fetches no instruction. -/
theorem fetch_not_mem_invoked {addr : UInt32} :
    .fetch addr ∉ (Event.invoked region s).accesses config fuel past := by
  simp [Event.accesses]

/-- What an act fetches is recorded with it. -/
theorem Act.fetched (hact : Act fuel e s event e' s') {addr : UInt32}
    (h : .fetch addr ∈ event.accesses config fuel past) : ∃ i ∈ event.recorded, i.2 = addr := by
  cases hact with
  | invoke => exact absurd h fetch_not_mem_invoked
  | interpret hstep => exact Machine.fetched_step hstep h
  | build => cases h

/-- What is fetched was recorded by an event of the log. -/
theorem Acts.fetched (hacts : Acts fuel e s log e' s') {addr : UInt32}
    (h : .fetch addr ∈ logAccesses config fuel past log) :
    ∃ event ∈ log, ∃ i ∈ event.recorded, i.2 = addr := by
  induction hacts generalizing past with
  | none => cases h
  | act hact _ ih =>
    rcases List.mem_append.1 h with h | h
    · exact ⟨_, List.mem_cons_self, hact.fetched h⟩
    · obtain ⟨event, hmem, hi⟩ := ih h
      exact ⟨event, List.mem_cons_of_mem _ hmem, hi⟩

/-- All that a run fetches is recorded in it. -/
theorem Ends.fetched {r : Run} (hends : Ends fuel e s log r) {addr : UInt32}
    (h : .fetch addr ∈ logAccesses config fuel past log) :
    ∃ event ∈ log, ∃ i ∈ event.recorded, i.2 = addr := by
  cases hends with
  | done hacts | faults hacts _ => exact hacts.fetched h
  | broke hbroke =>
    obtain ⟨hacts, hbreaks⟩ := hbroke
    rw [logAccesses_append] at h
    rcases List.mem_append.1 h with h | h
    · obtain ⟨event, hmem, hi⟩ := hacts.fetched h
      exact ⟨event, List.mem_append_left _ hmem, hi⟩
    · rw [logAccesses, logAccesses, List.append_nil] at h
      cases hbreaks with
      | stuck | endless => exact absurd h fetch_not_mem_invoked
      | broken => cases h

/-! ## Where regions come from -/

/-- The word was recorded at its address. -/
def Recorded (past : List Event) (i : UInt32 × UInt32) : Prop := ∃ event ∈ past, i ∈ event.recorded

/-- What was recorded stays recorded. -/
theorem Recorded.cons {i : UInt32 × UInt32} (h : Recorded past i) : Recorded (event :: past) i := by
  obtain ⟨event', hmem, hi⟩ := h
  exact ⟨event', List.mem_cons_of_mem _ hmem, hi⟩

/-- All words of the profile were recorded, and no block of it starts at the address of the synthetic
entry. -/
structure Covers (past : List Event) (profile : Profile) : Prop where
  interpreted : profile.Interpreted
  unmarked : profile.trace? entryMark = none
  seen : ∀ i, profile.Seen i → Recorded past i

/-- A log covers a profile if a part of it does. -/
theorem Covers.cons {profile : Profile} (h : Covers past profile) : Covers (event :: past) profile :=
  ⟨h.interpreted, h.unmarked, fun i hi => (h.seen i hi).cons⟩

/-- A region was compiled from the profile that the past has for its entry. -/
def BuiltIn (config : Config) (past : List Event) (region : Compiled) : Prop :=
  ∃ profile, source? past region.entry = some profile ∧ Covers past profile ∧
    compile config .eval profile region.entry = .ok region

/-- A region stays the one that was built last for its entry until another build is tried there. -/
theorem BuiltIn.cons (h : BuiltIn config past region)
    (hnew : ∀ profile, event ≠ .tried profile region.entry) :
    BuiltIn config (event :: past) region := by
  obtain ⟨profile, hsource, hcovers, hcompile⟩ := h
  refine ⟨profile, ?_, hcovers.cons, hcompile⟩
  cases event with
  | tried profile' tried =>
    have hne : tried ≠ region.entry := fun heq => hnew profile' (congrArg (Event.tried profile') heq)
    exact (if_neg hne).trans hsource
  | invoked | interpreted => exact hsource

/-- What an engine has learned and built comes from the past. -/
structure Sourced (config : Config) (past : List Event) (e : Engine) : Prop where
  config_eq : e.config = config
  backend_eq : e.backend = .eval
  profile : Covers past e.profile
  region : ∀ region ∈ e.cache.regions, BuiltIn config past region

/-- A new engine has no regions to account for. -/
theorem sourced_new (config : Config) : (new config .eval).Sourced config [] where
  config_eq := rfl
  backend_eq := rfl
  profile := ⟨.empty, rfl, fun i ⟨_, _, htrace, _⟩ => by cases htrace⟩
  region := nofun

/-- A region that is used was built from what was recorded. -/
theorem Sourced.use (h : e.Sourced config past) {cache : Cache}
    (huse : e.cache.use? s.pc = some (region, cache)) :
    BuiltIn config past region ∧ region.entry = s.pc ∧
      ∀ r ∈ cache.regions, BuiltIn config past r := by
  obtain ⟨found, hfind, heq⟩ := Option.map_eq_some_iff.1 huse
  cases heq
  have hbuilt := h.region region (List.mem_of_find?_eq_some hfind)
  refine ⟨hbuilt, by simpa using List.find?_some hfind, List.forall_mem_cons.2 ⟨hbuilt, ?_⟩⟩
  exact fun r hr => h.region r (Cache.mem_others.1 hr).1

/-- An act keeps up where everything comes from, unless it runs an instruction at the address of the
synthetic entry. -/
theorem Act.sourced (hact : Act fuel e s event e' s') (h : e.Sourced config past)
    (hmark : .execute entryMark ∉ event.accesses config fuel past) :
    e'.Sourced config (event :: past) := by
  cases hact with
  | invoke _ huse _ =>
    obtain ⟨-, -, hall⟩ := h.use huse
    exact ⟨h.config_eq, h.backend_eq, h.profile.cons, fun r hr => (hall r hr).cons (by simp)⟩
  | @interpret _ _ trace hstep =>
    have hentry : trace.entry ≠ entryMark := by
      rw [(Machine.trace_of_step hstep).1]
      intro heq
      exact hmark (heq ▸ (Machine.step_accesses hstep).1)
    refine ⟨h.config_eq, h.backend_eq, ⟨.record h.profile.interpreted hstep, ?_, fun i hi => ?_⟩,
      fun r hr => (h.region r hr).cons (by simp)⟩
    · exact (Profile.trace?_record ..).trans ((if_neg hentry.symm).trans h.profile.unmarked)
    · rcases Profile.seen_record hi with hi | hi
      · exact ⟨_, List.mem_cons_self, hi⟩
      · exact (h.profile.seen i hi).cons
  | @build _ _ entry _ _ hdue hbuild =>
    -- There is no region for the entry yet, so no other region loses where it comes from.
    have hother : ∀ r ∈ e.cache.regions, BuiltIn config (.tried e.profile entry :: past) r := by
      intro r hr
      refine (h.region r hr).cons fun profile heq => (isDue_spec hdue).1 ?_
      cases heq
      exact List.mem_map_of_mem hr
    obtain ⟨region, hcompile, -, rfl⟩ | ⟨_, -, -, ⟨-, rfl⟩ | ⟨-, rfl⟩⟩ := build_cases hbuild
    · refine ⟨h.config_eq, h.backend_eq, h.profile.cons, fun r hr => ?_⟩
      rcases Cache.mem_insert hr with rfl | hr
      · have hentry := compile_entry hcompile
        rw [h.config_eq, h.backend_eq] at hcompile
        exact ⟨e.profile, if_pos hentry.symm, h.profile.cons, hentry.symm ▸ hcompile⟩
      · exact hother r hr
    · exact ⟨h.config_eq, h.backend_eq, h.profile.cons, hother⟩
    · refine ⟨h.config_eq, h.backend_eq, h.profile.cons, fun r hr => ?_⟩
      exact hother r (Cache.mem_others.1 hr).1

end Engine

end HotRegion
