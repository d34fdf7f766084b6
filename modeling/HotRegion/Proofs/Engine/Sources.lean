import HotRegion.Proofs.Engine.Failed

/-!
# Where the regions of an engine come from

An engine compiles regions from the profile it has at that time. Whatever is true of all the code
that it has recorded so far is therefore true of the code of every region that it keeps or runs,
also after the profile has changed.

## Key results

- `Engine.Act.stocked`: an act keeps up what is true of recorded code
- `Engine.Calls.stocked`: so do calls, and what the log lists comes from such code
-/

namespace HotRegion

open Machine (State)
open Region (Block)
open Ssa (bind_eq_ok)

/-- An insertion adds one region at most. -/
theorem Cache.mem_insert {c : Cache} {r region : Compiled} (h : r ∈ (c.insert region).1.regions) :
    r = region ∨ r ∈ c.regions := by
  unfold insert at h
  dsimp only at h
  split at h
  · exact (List.mem_cons.1 h).imp_right fun hr => (mem_others.1 hr).1
  · exact (List.mem_cons.1 h).imp_right List.mem_of_mem_dropLast

/-- The region was compiled from interpreted code with the property. -/
def Compiled.From (config : Config) (backend : Backend) (K : UInt32 × UInt32 → Prop)
    (region : Compiled) : Prop :=
  ∃ profile : Profile, profile.Interpreted ∧ (∀ i, profile.Seen i → K i) ∧
    compile config backend profile region.entry = .ok region

namespace Engine

variable {e e' : Engine} {s s' : State} {fuel : Nat} {config : Config} {backend : Backend}
  {K K' : UInt32 × UInt32 → Prop} {event : Event} {log : List Event}

/-- The words that are recorded with the event, each with its address. -/
def Event.recorded : Event → List (UInt32 × UInt32)
  | interpreted _ trace _ => (Block.ofTrace trace).code
  | invoked .. | tried .. => []

/-- What the event is about comes from code with the property. -/
def Event.From (config : Config) (backend : Backend) (K : UInt32 × UInt32 → Prop) : Event → Prop
  | invoked region s => region.From config backend K ∧ region.entry = s.pc
  | interpreted .. => True
  | tried profile _ => profile.Interpreted ∧ ∀ i, profile.Seen i → K i

/-- What the engine has recorded and what it keeps comes from code with the property. -/
structure Stocked (config : Config) (backend : Backend) (K : UInt32 × UInt32 → Prop) (e : Engine) :
    Prop where
  config_eq : e.config = config
  backend_eq : e.backend = backend
  interpreted : e.profile.Interpreted
  seen : ∀ i, e.profile.Seen i → K i
  region : ∀ region ∈ e.cache.regions, region.From config backend K

/-- A new engine has no regions whose source is in question. -/
theorem stocked_new : (new config backend).Stocked config backend K where
  config_eq := rfl
  backend_eq := rfl
  interpreted := .empty
  seen i h := by
    obtain ⟨_, _, htrace, -⟩ := h
    cases htrace
  region := nofun

/-- A cached region that is used comes from such code, and so does everything in the cache then. -/
theorem Stocked.use (h : e.Stocked config backend K) {region : Compiled} {cache : Cache}
    (huse : e.cache.use? s.pc = some (region, cache)) :
    region.From config backend K ∧ region.entry = s.pc ∧
      ∀ r ∈ cache.regions, r.From config backend K := by
  obtain ⟨found, hfind, heq⟩ := Option.map_eq_some_iff.1 huse
  cases heq
  have hfrom := h.region region (List.mem_of_find?_eq_some hfind)
  refine ⟨hfrom, by simpa using List.find?_some hfind, List.forall_mem_cons.2 ⟨hfrom, ?_⟩⟩
  exact fun r hr => h.region r (Cache.mem_others.1 hr).1

/-- An act keeps up what is true of recorded code, and what it is about comes from such code. -/
theorem Act.stocked (hact : Act fuel e s event e' s') (h : e.Stocked config backend K)
    (hrecords : ∀ i ∈ event.recorded, K i) :
    e'.Stocked config backend K ∧ event.From config backend K := by
  cases hact with
  | invoke _ huse _ =>
    obtain ⟨hfrom, hentry, hall⟩ := h.use huse
    exact ⟨⟨h.config_eq, h.backend_eq, h.interpreted, h.seen, hall⟩, hfrom, hentry⟩
  | interpret hstep =>
    refine ⟨⟨h.config_eq, h.backend_eq, .record h.interpreted hstep, ?_, h.region⟩, trivial⟩
    -- The words of the trace are recorded by this event; all others were seen before it.
    intro i hi
    rcases Profile.seen_record hi with hi | hi
    · exact hrecords i hi
    · exact h.seen i hi
  | build _ _ hbuild =>
    refine ⟨?_, h.interpreted, h.seen⟩
    -- Only the region built now is new to the cache.
    obtain ⟨region, hcompile, -, rfl⟩ | ⟨_, -, -, ⟨-, rfl⟩ | ⟨-, rfl⟩⟩ := build_cases hbuild
    · refine ⟨h.config_eq, h.backend_eq, h.interpreted, h.seen, fun r hr => ?_⟩
      rcases Cache.mem_insert hr with rfl | hr
      · rw [h.config_eq, h.backend_eq, ← compile_entry hcompile] at hcompile
        exact ⟨e.profile, h.interpreted, h.seen, hcompile⟩
      · exact h.region r hr
    · exact ⟨h.config_eq, h.backend_eq, h.interpreted, h.seen, h.region⟩
    · refine ⟨h.config_eq, h.backend_eq, h.interpreted, h.seen, fun r hr => ?_⟩
      exact h.region r (Cache.mem_others.1 hr).1

/-- A crash is one of a region with a source. -/
theorem Breaks.stocked {crash : Crash} (hbreaks : Breaks fuel e s event crash)
    (h : e.Stocked config backend K) : event.From config backend K := by
  cases hbreaks with
  | stuck huse _ | endless huse _ =>
    obtain ⟨hfrom, hentry, -⟩ := h.use huse
    exact ⟨hfrom, hentry⟩
  | broken => exact ⟨h.interpreted, h.seen⟩

/-- Regions have their sources after any log. -/
theorem Acts.stocked (hacts : Acts fuel e s log e' s') (h : e.Stocked config backend K)
    (hrecords : ∀ event ∈ log, ∀ i ∈ event.recorded, K i) :
    e'.Stocked config backend K ∧ ∀ event ∈ log, event.From config backend K := by
  induction hacts with
  | none => exact ⟨h, nofun⟩
  | act hact _ ih =>
    obtain ⟨hfirst, hrest⟩ := List.forall_mem_cons.1 hrecords
    obtain ⟨h, hfrom⟩ := hact.stocked h hfirst
    obtain ⟨h, hall⟩ := ih h hrest
    exact ⟨h, List.forall_mem_cons.2 ⟨hfrom, hall⟩⟩

/-- Regions have their sources up to a crash. -/
theorem Broke.stocked {crash : Crash} (hbroke : Broke fuel e s log crash)
    (h : e.Stocked config backend K) (hrecords : ∀ event ∈ log, ∀ i ∈ event.recorded, K i) :
    ∀ event ∈ log, event.From config backend K := by
  obtain ⟨hacts, hbreaks⟩ := hbroke
  obtain ⟨hrecords, -⟩ := List.forall_mem_append.1 hrecords
  obtain ⟨h, hall⟩ := hacts.stocked h hrecords
  refine List.forall_mem_append.2 ⟨hall, fun event hevent => ?_⟩
  rw [List.mem_singleton.1 hevent]
  exact hbreaks.stocked h

/-- Regions have their sources up to the end of a run. -/
theorem Ends.stocked {r : Run} (hends : Ends fuel e s log r) (h : e.Stocked config backend K)
    (hrecords : ∀ event ∈ log, ∀ i ∈ event.recorded, K i) :
    ∀ event ∈ log, event.From config backend K := by
  cases hends with
  | done hacts => exact (hacts.stocked h hrecords).2
  | faults hacts _ => exact (hacts.stocked h hrecords).2
  | broke hbroke => exact hbroke.stocked h hrecords

/-- Calls keep up what is true of recorded code, and what their log lists comes from such code. -/
theorem Calls.stocked (hcalls : Calls e log e') (h : e.Stocked config backend K)
    (hrecords : ∀ event ∈ log, ∀ i ∈ event.recorded, K i) :
    e'.Stocked config backend K ∧ ∀ event ∈ log, event.From config backend K := by
  induction hcalls with
  | none => exact ⟨h, nofun⟩
  | run _ fuel s maxBlocks hreturn ih =>
    obtain ⟨hbefore, hrecords⟩ := List.forall_mem_append.1 hrecords
    obtain ⟨h, hall⟩ := ih hbefore
    obtain ⟨s₁, hacts⟩ := acts_of_run hreturn
    obtain ⟨h, hmore⟩ := hacts.stocked h hrecords
    exact ⟨h, List.forall_mem_append.2 ⟨hall, hmore⟩⟩
  | tryExecute _ hreturn ih =>
    obtain ⟨hbefore, hrecords⟩ := List.forall_mem_append.1 hrecords
    obtain ⟨h, hall⟩ := ih hbefore
    obtain ⟨c, hrun, heq⟩ := bind_eq_ok.1 hreturn
    cases heq
    obtain ⟨h, hmore⟩ := (acts_of_runCompiled hrun).1.stocked h hrecords
    exact ⟨h, List.forall_mem_append.2 ⟨hall, hmore⟩⟩

end Engine

end HotRegion
