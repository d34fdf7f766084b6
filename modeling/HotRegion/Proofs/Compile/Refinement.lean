import HotRegion.Proofs.Compile.Total
import HotRegion.Proofs.Lowering.Reentry
import HotRegion.Proofs.Lowering.Steps

/-!
# Compiled regions refine the machine

Running a compiled region does what the machine does one instruction at a time, as long as memory
holds the code of the region and the run does not store over it.

## Key results

- `Generated.reaches`: a run of the function of a region is a run of single steps
- `invoke_refines`: so is a run of the compiled region
-/

namespace HotRegion

open Machine (State Memory Store Reaches)
open Region (entrySlot entryMark)
open Lowering (Comes Departs Left Scope SafeBetween Standing)
open Ssa (Watched Exit)

variable {config : Config} {profile : Profile} {entry : UInt32} {p : Prepared} {f : Ssa.Function}
  {K : UInt32 × UInt32 → Prop} {s s' : State} {e : Exit} {m : Watched} {fuel : Nat} {region : Compiled}

/-! ## Stores -/

/-- The stores of a run that exits. -/
def Ssa.Outcome.stores : Ssa.Outcome Watched → List Store
  | .exited _ m => m.stores
  | .stuck _ | .outOfFuel => []

/-- Memory holds the code of a region. -/
def Region.In (r : Region) (mem : Memory) : Prop := ∀ i, r.HasCode i → mem.readWord i.2 = i.1

/-- None of the stores is over the code of a region. -/
def Region.Spared (r : Region) (mem : Memory) (stores : List Store) : Prop :=
  ∀ store ∈ stores, ∀ i, r.HasCode i → ¬ mem.Overlaps store i.2

/-- Memory holds the code of a region all along a run that does not store over it. -/
theorem safeBetween_of_spared {r : Region} (hin : r.In s.mem) (hspared : r.Spared s.mem m.stores) :
    SafeBetween r.In ⟨s, []⟩ m := by
  intro m₁ hle hle' i hi
  rw [hle.readWord fun store hs => hspared store (hle'.mem_stores hs) i hi]
  exact hin i hi

/-! ## Runs -/

/-- The run of a function of a region on the plain state and on the watched one. -/
theorem evaluate_eq_exited (h : Backend.evaluate f fuel s = .exited e s') :
    ∃ m, Ssa.run fuel f (⟨s, []⟩ : Watched) = .exited e m ∧ s' = { m.state with pc := e.pc } := by
  simp only [Backend.evaluate, Ssa.run_watched] at h
  cases hrun : Ssa.run fuel f (⟨s, []⟩ : Watched) with
  | exited e' m =>
    rw [hrun] at h
    cases h
    exact ⟨m, rfl, rfl⟩
  | stuck cause =>
    rw [hrun] at h
    cases h
  | outOfFuel =>
    rw [hrun] at h
    cases h

/-- The compiled region is the function of the prepared one. -/
theorem invoke_eq (hprepare : prepare config profile entry = .ok p) (hf : p.generate config = .ok f)
    (h : compile config .eval profile entry = .ok region) :
    region.invoke fuel s = Backend.evaluate f fuel s := by
  obtain ⟨p', f', code, hp', hf', hcode, rfl⟩ := compile_eq_ok.1 h
  obtain rfl := Except.ok.inj (hprepare.symm.trans hp')
  obtain rfl := Except.ok.inj (hf.symm.trans hf')
  obtain ⟨-, hcode⟩ := Ssa.check_bind_eq_ok.1 hcode
  cases hcode
  rfl

/-- A region is compiled only if no block of it is at the address of the synthetic entry, even if the
delay slot of a likely branch was recorded there. -/
theorem prepares_of_compile (hp : profile.Interpreted) (hmark : profile.trace? entryMark = none)
    (h : compile config .eval profile entry = .ok region) :
    ∃ p f, Prepares config profile entry p ∧
      Nonempty (Generated p config (fun i => profile.Compilable i ∧ p.region.HasCode i) f) ∧
      ∀ fuel s, region.invoke fuel s = Backend.evaluate f fuel s := by
  obtain ⟨p, f, code, hprepare, hf, hcode, -⟩ := compile_eq_ok.1 h
  obtain ⟨hready, hentry, hexact⟩ := ready_of_prepare hp hmark hprepare
  have hvalid : f.validate = .ok () := Ssa.mapError_eq_ok.1 (Ssa.check_bind_eq_ok.1 hcode).1
  have hprepares : Prepares config profile entry p := ⟨hprepare, hready, hentry, hexact, fun s b hs hb =>
    Lowering.unmarked_of_validate hready (Ssa.mapError_eq_ok.1 hf) hvalid hs hb⟩
  obtain ⟨f', ⟨g⟩⟩ := hprepares.generated rfl
  obtain rfl := Except.ok.inj (hf.symm.trans g.generate)
  exact ⟨p, f, hprepares, ⟨g⟩, fun fuel s => invoke_eq hprepare hf h⟩

/-- A run of the function of a region changes memory by its stores. -/
theorem Generated.le_of_run (g : Generated p config K f)
    (hrun : Ssa.run fuel f (⟨s, []⟩ : Watched) = .exited e m) : (⟨s, []⟩ : Watched).Le m := by
  obtain ⟨_, _, _, _, _, _, -, -, -, hle, -⟩ :=
    g.laid.crosses_of_run g.sound g.supplied s (g.function ▸ hrun)
  exact hle

/-- A run of the function of a region is a run of single steps. Instructions that are not counted are
made up for. -/
theorem Generated.reaches (g : Generated p config K f) (hK : ∀ i, K i → p.region.HasCode i)
    (hpc : s.pc = p.region.entryAddr) (hzero : s.reg .zero = 0) (hin : p.region.In s.mem)
    (hrun : Ssa.run fuel f (⟨s, []⟩ : Watched) = .exited e m)
    (hspared : p.region.Spared s.mem m.stores) :
    ∃ k icnt, 0 < k ∧ Reaches k s (({ m.state with pc := e.pc } : State).clock e.pc icnt) ∧
      (config.countInstructions = true → icnt = m.state.icnt) ∧
      (config.countInstructions = false → m.state.icnt = s.icnt) := by
  -- The code in memory is that of the region as long as that is spared.
  have hsafe : ∀ mem, p.region.In mem → ∀ i, K i → mem.readWord i.2 = i.1 := fun mem hmem i hi =>
    hmem i (hK i hi)
  have hself : s.enter p.region.entryAddr = s := by
    rw [State.enter_of_zero hzero, ← hpc]
  -- The function crosses the region as the guest passes its blocks, which are steps of the
  -- interpreter.
  obtain ⟨first, y, b, g₁, g', out, hfirst, hb, hleft, -, hcross⟩ :=
    g.laid.crosses_of_run g.sound g.supplied s (g.function ▸ hrun)
  obtain ⟨hcomes, hdeparts⟩ := hcross p.region.In (safeBetween_of_spared hin hspared)
  rw [p.scope_region, hself] at hcomes
  obtain ⟨first', b₁, hfirst', hsuccs, hb₁, hguest, hentry⟩ := g.sound.ready.first
  obtain rfl := Option.some.inj (hfirst.symm.trans hfirst')
  have hst : Standing (p.scope config) K first (s.clock s.pc s.icnt) s :=
    .guest hb₁ hguest (hpc.trans hentry.symm)
  have hne : first ≠ entrySlot := g.sound.ready.rooted.ne_entry ((hsuccs first).2 rfl)
  obtain ⟨k, icnt, hk, hreach, hcount⟩ :=
    g.sound.reaches_of_departs hsafe hcomes hne hin hst hb hdeparts
  -- Machine and guest end in one state, but for the counters that compiled code does not keep.
  have hstate := hleft.state_eq (hcomes.reg_zero.symm.trans
    (Lowering.reg_zero_of_passes hdeparts.pass).symm)
  have hicnt : m.state.icnt = g'.icnt := (congrArg State.icnt hstate :)
  refine ⟨k, icnt, hk, ?_, fun hc => ?_, fun hc => ?_⟩
  · rw [hstate, hleft.pc]
    exact hreach
  · rw [hicnt]
    exact hcount hc rfl
  · have hpass := hdeparts.pass.icnt_eq
    rw [p.scope_config, hc, if_neg (by simp)] at hpass
    rw [hicnt, hpass, hcomes.icnt_eq hc]

/-- Compilation preserves what the guest does. A region that is compiled from interpreted code and
invoked at its entry, on a memory that holds its code and that the run does not store over, takes the
guest where at least one single step of the machine takes it. Without counting, the count of
instructions stays. -/
theorem invoke_refines (hp : profile.Interpreted) (hmark : ∀ i, profile.Seen i → i.2 ≠ entryMark)
    (hcompile : compile config .eval profile entry = .ok region)
    (hprepare : prepare config profile entry = .ok p) (hf : p.generate config = .ok f)
    (hpc : s.pc = entry) (hzero : s.reg .zero = 0) (hin : p.region.In s.mem)
    (hrun : region.invoke fuel s = .exited e s')
    (hspared : p.region.Spared s.mem (Ssa.run fuel f (⟨s, []⟩ : Watched)).stores) :
    ∃ k t, 1 ≤ k ∧ Reaches k s t ∧ (config.countInstructions = true → s' = t) ∧
      (config.countInstructions = false → s' = { t with icnt := s.icnt }) := by
  have hprepares := prepares_of_prepare hp hmark hprepare
  obtain ⟨f', ⟨g⟩⟩ := hprepares.generated rfl
  obtain rfl := Except.ok.inj (hf.symm.trans g.generate)
  rw [invoke_eq hprepare hf hcompile] at hrun
  obtain ⟨m, hwatched, rfl⟩ := evaluate_eq_exited hrun
  rw [hwatched] at hspared
  obtain ⟨k, icnt, hk, hreach, hcount, hkeep⟩ := g.reaches (fun i hi => hi.2)
    (hpc.trans hprepares.entryAddr.symm) hzero hin hwatched hspared
  refine ⟨k, _, hk, hreach, fun hc => ?_, fun hc => ?_⟩
  · rw [hcount hc]
    rfl
  · rw [← hkeep hc]
    rfl

/-! ## A loop -/

/-- The loop with two rounds to go. -/
def Profile.countdownStart : State := Profile.countdownState.setReg (.ofNat 8) 2

/-- The function of the recorded loop goes around once and falls through, without a store. -/
theorem countdown_exits : ∃ p f m, prepare .standard .countdown 0x20 = .ok p ∧
    p.generate .standard = .ok f ∧ Ssa.run 10 f (⟨Profile.countdownStart, []⟩ : Watched) =
      .exited ⟨0x2c, .fallthrough⟩ m ∧ m.stores = [] := by
  have hrun : (match prepare .standard .countdown 0x20 with
      | .error _ => false
      | .ok p => match p.generate .standard with
        | .error _ => false
        | .ok f => match Ssa.run 10 f (⟨Profile.countdownStart, []⟩ : Watched) with
          | .exited e m => decide (e = ⟨0x2c, .fallthrough⟩) && m.stores.isEmpty
          | _ => false) = true := by decide +kernel
  split at hrun
  · cases hrun
  next p hp =>
  split at hrun
  · cases hrun
  next f hf =>
  split at hrun
  · next e m hexit =>
    simp only [Bool.and_eq_true, decide_eq_true_eq] at hrun
    exact ⟨p, f, m, hp, hf, hrun.1 ▸ hexit, List.isEmpty_iff.1 hrun.2⟩
  · cases hrun

/-- The compiled loop falls through. -/
theorem countdown_invoke : ∃ p region s', prepare .standard .countdown 0x20 = .ok p ∧
    compile .standard .eval .countdown 0x20 = .ok region ∧
    region.invoke 10 Profile.countdownStart = .exited ⟨0x2c, .fallthrough⟩ s' := by
  obtain ⟨p, f, m, hprepare, hf, hrun, -⟩ := countdown_exits
  have hprepares := prepares_of_prepare Profile.interpreted_countdown Profile.unmarked_countdown
    hprepare
  obtain ⟨f', ⟨g⟩⟩ := hprepares.generated rfl
  obtain rfl := Except.ok.inj (hf.symm.trans g.generate)
  have hcompile := g.compile hprepares
  refine ⟨p, _, { m.state with pc := 0x2c }, hprepare, hcompile, ?_⟩
  rw [invoke_eq hprepare hf hcompile, Backend.evaluate, Ssa.run_watched, hrun]
  rfl

/-- Memory holds the code of the loop. -/
theorem countdown_in (hprepare : prepare .standard .countdown 0x20 = .ok p) :
    p.region.In Profile.countdownStart.mem := by
  intro i hi
  have hprepares := prepares_of_prepare Profile.interpreted_countdown Profile.unmarked_countdown
    hprepare
  have hcode : ((Region.Block.ofTrace Profile.countdownTrace).code.all fun i =>
      Profile.countdownStart.mem.readWord i.2 == i.1) = true := by decide +kernel
  simpa using List.all_eq_true.1 hcode i (Profile.seen_countdown (hprepares.seen hi))

/-- The compiled loop takes the guest where single steps take it. -/
theorem invoke_refines_countdown : ∃ region e s' k,
    compile .standard .eval .countdown 0x20 = .ok region ∧
      region.invoke 10 Profile.countdownStart = .exited e s' ∧ 1 ≤ k ∧
      Reaches k Profile.countdownStart s' := by
  obtain ⟨p, region, s', hprepare, hcompile, hinvoke⟩ := countdown_invoke
  obtain ⟨p', f, m, hprepare', hf, hrun, hstores⟩ := countdown_exits
  obtain rfl := Except.ok.inj (hprepare.symm.trans hprepare')
  have hspared : p.region.Spared Profile.countdownStart.mem
      (Ssa.run 10 f (⟨Profile.countdownStart, []⟩ : Watched)).stores := by
    rw [hrun]
    intro store hstore
    rw [show (Ssa.Outcome.exited _ m).stores = [] from hstores] at hstore
    cases hstore
  obtain ⟨k, t, hk, hreach, hsame, -⟩ := invoke_refines Profile.interpreted_countdown
    Profile.unmarked_countdown hcompile hprepare hf (by decide +kernel) (by decide +kernel)
    (countdown_in hprepare) hinvoke hspared
  exact ⟨region, _, s', k, hcompile, hinvoke, hk, hsame (by decide) ▸ hreach⟩

end HotRegion
