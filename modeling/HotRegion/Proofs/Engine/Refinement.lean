import HotRegion.Proofs.Compile.Folding
import HotRegion.Proofs.Engine.Accesses
import HotRegion.Proofs.Machine.SingleSteps

/-!
# Engines refine the machine

Whatever an engine interprets, compiles and runs, the guest stays on the trajectory of single steps of
the machine, as long as no store is over a word that was fetched before. So it makes no difference for
the guest how the engine is configured.

## Key results

- `Engine.Act.onTrack`: an act takes the guest along the trajectory
- `Engine.Undisturbed.of_apart`: runs that do not store over recorded code
- `Engine.run_refines`: a run ends on the trajectory, and all runs that fault end in the same fault
-/

namespace HotRegion

open Machine (State Fault Access Reaches)
open Region (Block entryMark)
open Ssa (Watched)

namespace Engine

variable {config : Config} {fuel : Nat} {e e' : Engine} {s₀ s s' : State} {event : Event}
  {past log : List Event} {pre : List Access}

/-- The guest that started at `s₀` is at a state that single steps reach, and what was recorded is
still in memory. -/
structure OnTrack (config : Config) (s₀ : State) (past : List Event) (pre : List Access) (e : Engine)
    (s : State) : Prop where
  sourced : e.Sourced config past
  size : s.mem.size = s₀.mem.size
  held : ∀ i, Recorded past i → .fetch i.2 ∈ pre ∧ s.mem.readWord i.2 = i.1
  zero : s.reg .zero = 0
  reaches : ∃ k t, Reaches k s₀ t ∧ s.Alike config.countInstructions t

theorem onTrack_new (config : Config) (hzero : s₀.reg .zero = 0) :
    OnTrack config s₀ [] [] (new config .eval) s₀ where
  sourced := sourced_new config
  size := rfl
  held := fun i ⟨_, hmem, _⟩ => by cases hmem
  zero := hzero
  reaches := ⟨0, s₀, .refl s₀, .refl _ s₀⟩

/-- Single steps of the guest go on along the trajectory. -/
theorem OnTrack.go {k : Nat} {u : State} (h : OnTrack config s₀ past pre e s) (hreaches : Reaches k s u)
    (halike : s'.Alike config.countInstructions u) :
    s'.reg .zero = 0 ∧ ∃ k t, Reaches k s₀ t ∧ s'.Alike config.countInstructions t := by
  obtain ⟨l, t, ht, hst⟩ := h.reaches
  obtain ⟨v, hv, huv⟩ := hst.reaches hreaches
  refine ⟨?_, l + k, v, ht.trans hv, halike.trans huv⟩
  rw [halike.state]
  exact (hreaches.reg_zero).trans h.zero

/-- No store after what was fetched so far is over a recorded word. -/
theorem OnTrack.not_overlaps (h : OnTrack config s₀ past pre e s) {more : List Access}
    (hspares : (pre ++ more).Pairwise (Access.Spares s₀.mem)) {i : UInt32 × UInt32}
    (hi : Recorded past i) {store : Machine.Store} (hstore : .store store ∈ more) :
    ¬ s.mem.Overlaps store i.2 := by
  rw [Machine.Memory.overlaps_congr h.size]
  exact (List.pairwise_append.1 hspares).2.2 _ (h.held i hi).1 _ hstore

/-- A region that is run takes the guest along the trajectory. -/
theorem OnTrack.invoke (h : OnTrack config s₀ past pre e s) {region : Compiled} {cache : Cache}
    {exit : Ssa.Exit} (huse : e.cache.use? s.pc = some (region, cache))
    (hrun : region.invoke fuel s = .exited exit s')
    (hspares : (pre ++ (Event.invoked region s).accesses config fuel past).Pairwise
      (Access.Spares s₀.mem)) :
    s'.mem.size = s.mem.size ∧ (∀ i, Recorded past i → s'.mem.readWord i.2 = s.mem.readWord i.2) ∧
      ∃ k u, Reaches k s u ∧ s'.Alike config.countInstructions u := by
  obtain ⟨⟨profile, hsource, hcovers, hcompile⟩, hentry, -⟩ := h.sourced.use huse
  rw [hentry] at hsource hcompile
  obtain ⟨p, f, hprepares, ⟨g⟩, hinvoke⟩ :=
    prepares_of_compile hcovers.interpreted hcovers.unmarked hcompile
  rw [hinvoke] at hrun
  obtain ⟨m, hwatched, rfl⟩ := evaluate_eq_exited hrun
  -- The accesses of the event are the stores of the watched run.
  have haccesses : (Event.invoked region s).accesses config fuel past = m.stores.map .store := by
    have hf : function? config profile s.pc = some f := by
      simp [function?, hprepares.prepare, g.generate, Except.toOption]
    simp only [Event.accesses, regionStores, hsource, Option.bind_some, hf, Option.elim_some, hwatched]
    rfl
  rw [haccesses] at hspares
  -- None of them hits a recorded word, so memory holds the code of the region throughout.
  have hmiss : ∀ store ∈ m.stores, ∀ i, Recorded past i → ¬ s.mem.Overlaps store i.2 :=
    fun store hstore i hi => h.not_overlaps hspares hi (List.mem_map_of_mem hstore)
  have hrecorded : ∀ i, p.region.HasCode i → Recorded past i := fun i hi =>
    hcovers.seen i (hprepares.seen hi)
  have hle := g.le_of_run hwatched
  refine ⟨hle.size, fun i hi => hle.readWord fun store hstore => hmiss store hstore i hi, ?_⟩
  obtain ⟨k, icnt, -, hreaches, hcount, -⟩ := g.reaches (fun i hi => hi.2)
    hprepares.entryAddr.symm h.zero (fun i hi => (h.held i (hrecorded i hi)).2) hwatched
    (fun store hstore i hi => hmiss store hstore i (hrecorded i hi))
  exact ⟨k, _, hreaches, rfl, fun hc => (hcount hc).symm⟩

/-- A block that is interpreted takes the guest along the trajectory, and its words are fetched and
stay in memory. -/
theorem OnTrack.interpret (h : OnTrack config s₀ past pre e s) {trace : Machine.Trace}
    (hstep : Machine.step Machine.defaultLimit s = (.ok trace, s'))
    (hspares : (pre ++ Machine.accesses Machine.defaultLimit s).Pairwise (Access.Spares s₀.mem)) :
    s'.mem.size = s.mem.size ∧ (∀ i, Recorded past i → s'.mem.readWord i.2 = s.mem.readWord i.2) ∧
      (∀ i ∈ (Block.ofTrace trace).code, .fetch i.2 ∈ Machine.accesses Machine.defaultLimit s ∧
        s'.mem.readWord i.2 = i.1) ∧
      ∃ k, Reaches k s s' := by
  obtain ⟨-, hkept, hwords⟩ := Machine.step_accesses hstep
  obtain ⟨k, -, hreaches⟩ := Machine.reaches_of_step_ok hstep
  refine ⟨hkept.size, fun i hi => hkept.word i.2 fun store hstore => h.not_overlaps hspares hi hstore,
    ?_, k, hreaches⟩
  rw [← Access.spares_congr h.size] at hspares
  exact hwords (List.pairwise_append.1 hspares).2.1

/-- An act takes the guest along the trajectory. -/
theorem Act.onTrack (hact : Act fuel e s event e' s') (h : OnTrack config s₀ past pre e s)
    (hspares : (pre ++ event.accesses config fuel past).Pairwise (Access.Spares s₀.mem))
    (hmark : .execute entryMark ∉ event.accesses config fuel past) :
    OnTrack config s₀ (event :: past) (pre ++ event.accesses config fuel past) e' s' := by
  have hsourced := hact.sourced h.sourced hmark
  -- What the event records is new, and the rest is as it was.
  have hheld : (∀ i, Recorded past i → s'.mem.readWord i.2 = s.mem.readWord i.2) →
      (∀ i ∈ event.recorded, .fetch i.2 ∈ event.accesses config fuel past ∧
        s'.mem.readWord i.2 = i.1) →
      ∀ i, Recorded (event :: past) i →
        .fetch i.2 ∈ pre ++ event.accesses config fuel past ∧ s'.mem.readWord i.2 = i.1 := by
    rintro hold hnew i ⟨event', hmem, hi⟩
    rcases List.mem_cons.1 hmem with rfl | hmem
    · exact ⟨List.mem_append_right _ (hnew i hi).1, (hnew i hi).2⟩
    · obtain ⟨hfetch, hword⟩ := h.held i ⟨event', hmem, hi⟩
      exact ⟨List.mem_append_left _ hfetch, (hold i ⟨event', hmem, hi⟩).trans hword⟩
  cases hact with
  | invoke _ huse hrun =>
    obtain ⟨hsize, hold, k, u, hreaches, halike⟩ := h.invoke huse hrun hspares
    obtain ⟨hzero, htrack⟩ := h.go hreaches halike
    exact ⟨hsourced, hsize.trans h.size, hheld hold nofun, hzero, htrack⟩
  | interpret hstep =>
    obtain ⟨hsize, hold, hnew, k, hreaches⟩ := h.interpret hstep hspares
    obtain ⟨hzero, htrack⟩ := h.go hreaches (.refl _ _)
    exact ⟨hsourced, hsize.trans h.size, hheld hold hnew, hzero, htrack⟩
  | build => exact ⟨hsourced, h.size, hheld (fun _ _ => rfl) nofun, h.zero, h.reaches⟩

/-- Acts take the guest along the trajectory. -/
theorem Acts.onTrack (hacts : Acts fuel e s log e' s') (h : OnTrack config s₀ past pre e s)
    (hspares : (pre ++ logAccesses config fuel past log).Pairwise (Access.Spares s₀.mem))
    (hmark : .execute entryMark ∉ logAccesses config fuel past log) :
    ∃ pre', OnTrack config s₀ (log.reverse ++ past) pre' e' s' := by
  induction hacts generalizing past pre with
  | none => exact ⟨pre, h⟩
  | act hact _ ih =>
    rw [logAccesses, ← List.append_assoc] at hspares
    rw [logAccesses, List.mem_append, not_or] at hmark
    rw [List.reverse_cons, List.append_assoc]
    exact ih (hact.onTrack h (List.pairwise_append.1 hspares).1 hmark.1) hspares hmark.2

/-- On the trajectory nothing breaks down but a region that does not exit, unless a delay slot was
recorded at the address of the synthetic entry. -/
theorem Breaks.onTrack {crash : Crash} (hbreaks : Breaks fuel e s event crash)
    (h : OnTrack config s₀ past pre e s) : crash = .endless ∨ ∃ w, Recorded past (w, entryMark) := by
  cases hbreaks with
  | @stuck region cache cause huse hrun =>
    obtain ⟨⟨profile, -, hcovers, hcompile⟩, -⟩ := h.sourced.use huse
    obtain ⟨p, f, -, ⟨g⟩, hinvoke⟩ :=
      prepares_of_compile hcovers.interpreted hcovers.unmarked hcompile
    rw [hinvoke] at hrun
    exact absurd hrun (g.evaluate_ne_stuck fuel s cause)
  | endless => exact .inl rfl
  | @broken entry cause hdue hbuild =>
    -- Without a word recorded at the mark, building does not break.
    refine .inr (Classical.byContradiction fun hnone => ?_)
    have hunmarked : ∀ i, e.profile.Seen i → i.2 ≠ entryMark := by
      rintro ⟨w, addr⟩ hi rfl
      exact hnone ⟨w, h.sourced.profile.seen _ hi⟩
    have hcompile : compile e.config e.backend e.profile entry = .error (.broken cause) := by
      unfold build at hbuild
      split at hbuild
      · cases hbuild
      · split at hbuild <;> cases hbuild
      · next hcompile =>
        cases hbuild
        exact hcompile
    rw [h.sourced.backend_eq] at hcompile
    exact compile_ne_broken h.sourced.profile.interpreted hunmarked e.config entry cause hcompile

/-! ## Runs -/

/-- In a run of a new engine no store is over a word that was fetched before, and no instruction is
executed at the address of the synthetic entry. What is fetched is what the profile records, with the
block that is interpreted. -/
structure Undisturbed (config : Config) (fuel : Nat) (s : State) (maxBlocks : Nat) : Prop where
  spares : (runAccesses config fuel s maxBlocks).Pairwise (Access.Spares s.mem)
  unmarked : .execute entryMark ∉ runAccesses config fuel s maxBlocks

/-- It is enough that no store of the run is over a word that the run records at any time. -/
theorem Undisturbed.of_apart {maxBlocks : Nat}
    (happart : ∀ event ∈ (new config .eval).runLog fuel s maxBlocks, ∀ i ∈ event.recorded,
      ∀ access ∈ runAccesses config fuel s maxBlocks, Access.Spares s.mem (.fetch i.2) access)
    (hmark : .execute entryMark ∉ runAccesses config fuel s maxBlocks) :
    Undisturbed config fuel s maxBlocks := by
  refine ⟨List.pairwise_of_forall_mem_list fun a ha b hb => ?_, hmark⟩
  cases a with
  | fetch addr =>
    obtain ⟨event, hevent, i, hi, rfl⟩ := ends_of_run.fetched ha
    exact happart event hevent i hi b hb
  | _ => trivial

/-- The run takes the guest where single steps take it from `s`, to the same fault if there is one.
The engine itself fails only in compiled code that does not exit, or because it has recorded a delay
slot at the address of the synthetic entry. -/
structure Refines (counted : Bool) (s : State) (log : List Event) (r : Run) : Prop where
  done : ∀ sum, r.outcome = .ok sum → ∃ k t, Reaches k s t ∧ r.state.Alike counted t
  faults : ∀ fault, r.outcome = .error (.fault fault) → ∃ k u t, Reaches k s u ∧
    Machine.step 1 u = (.error fault, t) ∧ r.state.Alike counted t
  crashes : ∀ crash, r.outcome = .error (.crash crash) →
    crash = .endless ∨ ∃ event ∈ log, ∃ i ∈ event.recorded, i.2 = entryMark

/-- Where a run ends. -/
theorem Ends.refines {r : Run} (hends : Ends fuel (new config .eval) s log r)
    (hzero : s.reg .zero = 0)
    (hspares : (logAccesses config fuel [] log).Pairwise (Access.Spares s.mem))
    (hmark : .execute entryMark ∉ logAccesses config fuel [] log) :
    Refines config.countInstructions s log r := by
  have hnew := onTrack_new config hzero
  cases hends with
  | done hacts =>
    obtain ⟨pre, h⟩ := hacts.onTrack hnew hspares hmark
    exact ⟨fun _ _ => h.reaches, fun _ heq => (by cases heq), fun _ heq => (by cases heq)⟩
  | faults hacts hstep =>
    obtain ⟨pre, h⟩ := hacts.onTrack hnew hspares hmark
    refine ⟨fun _ heq => (by cases heq), fun fault heq => ?_, fun _ heq => (by cases heq)⟩
    cases heq
    -- Up to the block that faults the run is interpreted, and so is the part of it that was run.
    obtain ⟨k, t, hk, halike⟩ := h.reaches
    obtain ⟨l, u, hl, hu⟩ := Machine.reaches_of_step_error hstep
    obtain ⟨v, hv, huv⟩ := halike.reaches hl
    obtain ⟨w, hw, halike⟩ := huv.step hu
    exact ⟨k + l, v, w, hk.trans hv, hw, halike⟩
  | broke hbroke =>
    refine ⟨fun _ heq => (by cases heq), fun _ heq => (by cases heq), fun crash heq => ?_⟩
    cases heq
    -- Only what was done before it broke is on track.
    obtain ⟨hacts, hbreaks⟩ := hbroke
    rw [logAccesses_append] at hspares hmark
    obtain ⟨pre, h⟩ := hacts.onTrack hnew (List.pairwise_append.1 hspares).1
      fun hmem => hmark (List.mem_append_left _ hmem)
    refine (hbreaks.onTrack h).imp_right fun ⟨w, event, hmem, hi⟩ => ?_
    exact ⟨event, by simpa using Or.inl hmem, _, hi, rfl⟩

/-- The engine refines the machine. Every run of a new engine, in which no store is over code that
was fetched before and nothing is executed at the address of the synthetic entry, takes the guest
where single steps take it. Two such runs that fault, under whatever configurations and limits, end in
the same fault and the same state; the count of instructions is the same if both runs count. -/
theorem run_refines (hzero : s.reg .zero = 0) :
    (∀ config fuel maxBlocks, Undisturbed config fuel s maxBlocks →
      Refines config.countInstructions s ((new config .eval).runLog fuel s maxBlocks)
        ((new config .eval).run fuel s maxBlocks)) ∧
    ∀ config config' fuel fuel' maxBlocks maxBlocks' fault fault',
      Undisturbed config fuel s maxBlocks → Undisturbed config' fuel' s maxBlocks' →
      ((new config .eval).run fuel s maxBlocks).outcome = .error (.fault fault) →
      ((new config' .eval).run fuel' s maxBlocks').outcome = .error (.fault fault') →
      fault = fault' ∧ State.Alike (config.countInstructions && config'.countInstructions)
        ((new config .eval).run fuel s maxBlocks).state
        ((new config' .eval).run fuel' s maxBlocks').state := by
  have hrefines : ∀ config fuel maxBlocks, Undisturbed config fuel s maxBlocks →
      Refines config.countInstructions s ((new config .eval).runLog fuel s maxBlocks)
        ((new config .eval).run fuel s maxBlocks) := fun config fuel maxBlocks h =>
    ends_of_run.refines hzero h.spares h.unmarked
  refine ⟨hrefines, ?_⟩
  -- The interpreter faults in one state at most, and both runs end alike to it.
  intro config config' fuel fuel' maxBlocks maxBlocks' fault fault' h h' hfault hfault'
  obtain ⟨k, u, t, hk, hu, halike⟩ := (hrefines _ _ _ h).faults fault hfault
  obtain ⟨k', u', t', hk', hu', halike'⟩ := (hrefines _ _ _ h').faults fault' hfault'
  obtain ⟨rfl, rfl⟩ := hk.fault_unique hu hk' hu'
  refine ⟨rfl, (halike.mono ?_).trans (halike'.symm.mono ?_)⟩
  · exact fun hc => (Bool.and_eq_true_iff.1 hc).1
  · exact fun hc => (Bool.and_eq_true_iff.1 hc).2

/-! ## A loop that stores -/

/-- A machine at a loop that stores its counter in every round, with a breakpoint after it. -/
def tallyStart : State :=
  (State.initial (Profile.countdownState.mem.loadWords 0x20
    [0xac080080, 0x2508ffff, 0x1500fffd, 0, 0xd]) 0x20).setReg (.ofNat 8) 3

/-- A configuration that builds the region of a block when that runs again, and does not count
instructions there. -/
def uncounted : Config :=
  ⟨{ hotThreshold := 2, countInstructions := false }, by decide, by decide, by decide⟩

/-- Two engines build the region of the loop at different times and run it, and both take the guest to
the breakpoint as single steps do. -/
theorem run_refines_tally :
    ((new eager.config .eval).runLog 10 tallyStart 20).any Event.isInvoked = true ∧
    ((new uncounted .eval).runLog 10 tallyStart 20).any Event.isInvoked = true ∧
    (∃ k u, Reaches k tallyStart u ∧ Machine.step 1 u = (.error (.breakpoint 0x30),
      ((new eager.config .eval).run 10 tallyStart 20).state)) ∧
    ((new eager.config .eval).run 10 tallyStart 20).state.Alike false
      ((new uncounted .eval).run 10 tallyStart 20).state := by
  have heager : Undisturbed eager.config 10 tallyStart 20 := ⟨by decide +kernel, by decide +kernel⟩
  have huncounted : Undisturbed uncounted 10 tallyStart 20 := ⟨by decide +kernel, by decide +kernel⟩
  have hfault : ((new eager.config .eval).run 10 tallyStart 20).outcome =
      .error (.fault (.breakpoint 0x30)) := by decide +kernel
  have hfault' : ((new uncounted .eval).run 10 tallyStart 20).outcome =
      .error (.fault (.breakpoint 0x30)) := by decide +kernel
  obtain ⟨hrefines, hsame⟩ := run_refines (s := tallyStart) (by decide +kernel)
  refine ⟨by decide +kernel, by decide +kernel, ?_,
    (hsame _ _ _ _ _ _ _ _ heager huncounted hfault hfault').2⟩
  obtain ⟨k, u, t, hreaches, hstep, halike⟩ := (hrefines _ _ _ heager).faults _ hfault
  refine ⟨k, u, hreaches, hstep.trans ?_⟩
  rw [halike.state, halike.icnt (by decide)]

end Engine

end HotRegion
