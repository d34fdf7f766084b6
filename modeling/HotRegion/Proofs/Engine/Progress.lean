import HotRegion.Proofs.Compile.Refinement
import HotRegion.Proofs.Engine.Sources

/-!
# Compiled regions make progress

The synthetic entry of a region has an address of its own. As long as no instruction is recorded
there, it is the only block with that address, the region has a first guest block, and every run of
the compiled region retires instructions. Nothing keeps the guest from running code at that address,
though, and a region that is entered there retires nothing.

## Key results

- `Engine.regions_make_progress`: the regions that an engine builds and runs, if no instruction is
  recorded at the address of the synthetic entry
- `Engine.marked_entry_stays`: an engine that is caught in a region entered there
-/

namespace HotRegion

open Machine (State)
open Region (Slot Departure entrySlot entryMark)
open Ssa (Watched Exit)

/-! ## Instructions that retire -/

theorem Region.Block.Guest.instructionCount_pos {K : UInt32 × UInt32 → Prop} {b : Region.Block}
    (h : b.Guest K) : 0 < b.instructionCount := by
  cases htr : b.transfer with
  | none =>
    rw [Block.instructionCount_of_none htr, Block.length_code]
    exact List.length_pos_iff.2 h.shaped.ne_nil
  | some tr =>
    rw [Block.instructionCount_of_transfer htr]
    split <;> omega

namespace Lowering

variable {c : Scope} {x y : Slot} {b : Region.Block} {g g' h : State} {out : Departure} {n : Nat}

/-- The guest that enters block `x` at `g` retires `n` instructions until it leaves the region at
`g'`. -/
inductive Retires (c : Scope) : Slot → State → Nat → State → Prop where
  | leave {x : Slot} {b : Region.Block} {g g' : State} {out : Departure}
      (block : c.region.block? x = some b) (departs : Departs c (fun _ => True) b g g' out) :
      Retires c x g b.instructionCount g'
  | hop {x y : Slot} {b : Region.Block} {g g' h : State} {out : Departure} {n : Nat}
      (block : c.region.block? x = some b)
      (pass : b.Passes c.config.countInstructions (fun _ => True) g g' out)
      (next : c.next b g' out = some y) (rest : Retires c y g' n h) :
      Retires c x g (b.instructionCount + n) h

/-- The way of a guest through the region retires what its blocks hold. -/
theorem Comes.retires (hcomes : Comes c (fun _ => True) x g y h) (hb : c.region.block? y = some b)
    (hdeparts : Departs c (fun _ => True) b h g' out) : ∃ n, Retires c x g n g' := by
  induction hcomes with
  | here => exact ⟨_, .leave hb hdeparts⟩
  | hop block pass next _ ih =>
    obtain ⟨n, hrest⟩ := ih hb hdeparts
    exact ⟨_, .hop block pass next hrest⟩

/-- The instructions of the first block retire. -/
theorem Retires.first_le (hretires : Retires c x g n g') (hb : c.region.block? x = some b) :
    b.instructionCount ≤ n := by
  cases hretires with
  | leave block _ =>
    obtain rfl := Option.some.inj (block.symm.trans hb)
    exact Nat.le_refl _
  | hop block _ _ _ =>
    obtain rfl := Option.some.inj (block.symm.trans hb)
    exact Nat.le_add_right _ _

/-- Instructions that retire are counted if they are to be. -/
theorem Retires.icnt_eq (hretires : Retires c x g n g') (hcount : c.config.countInstructions = true) :
    g'.icnt = g.icnt + UInt64.ofNat n := by
  induction hretires with
  | leave _ departs => rw [departs.pass.icnt_eq, if_pos hcount]
  | hop _ pass _ _ ih =>
    rw [ih, pass.icnt_eq, if_pos hcount, UInt64.ofNat_add, UInt64.add_assoc]

end Lowering

/-! ## Regions -/

/-- The synthetic entry is the one block of the region at its address, and leads to a guest block
with at least one instruction. -/
structure Region.Begins (r : Region) : Prop where
  entry : ∃ b, r.block? entrySlot = some b ∧ b.isRegionEntry = true ∧ b.words = []
  other : ∀ x b, x ≠ entrySlot → r.block? x = some b → b.entry ≠ entryMark ∧ b.isRegionEntry = false
  first : ∃ first b, r.firstBlock? = some first ∧ r.block? first = some b ∧ b.isGuest = true ∧
    b.entry = r.entryAddr ∧ 0 < b.instructionCount

variable {config : Config} {profile : Profile} {entry : UInt32} {p : Prepared} {s t : State}
  {exit : Exit} {fuel : Nat} {region : Compiled}

/-- A region that is prepared from code which is not at the address of the synthetic entry begins with
a guest block. -/
theorem Prepares.begins (h : Prepares config profile entry p) : p.region.Begins where
  entry := by
    obtain ⟨b, hb, hentry, hwords, -⟩ := h.ready.entry
    exact ⟨b, hb, by rw [Region.Block.isRegionEntry, hentry]; rfl, hwords⟩
  other x b hx hb := by
    have hunmarked := h.unmarked x b hx hb
    exact ⟨by simpa [Region.Block.isRegionEntry] using hunmarked, hunmarked⟩
  first := by
    obtain ⟨first, b, hfirst, -, hb, hguest, hentry⟩ := h.ready.first
    exact ⟨first, b, hfirst, hb, hguest.isGuest, hentry, hguest.instructionCount_pos⟩

/-- A run of the function of a region retires at least one instruction. -/
theorem Generated.retires {K : UInt32 × UInt32 → Prop} {f : Ssa.Function} {m : Watched}
    (g : Generated p config K f) (hrun : Ssa.run fuel f (⟨s, []⟩ : Watched) = .exited exit m) :
    ∃ first n g', p.region.firstBlock? = some first ∧ 0 < n ∧
      Lowering.Retires (p.scope config) first (s.enter p.region.entryAddr) n g' ∧ exit.pc = g'.pc ∧
      m.state.mem = g'.mem ∧
      (config.countInstructions = true → m.state.icnt = s.icnt + UInt64.ofNat n) ∧
      (s.reg .zero = 0 → { m.state with pc := exit.pc } = g') := by
  obtain ⟨first, y, b, g₁, g', out, hfirst, hb, hleft, -, hcross⟩ :=
    g.laid.crosses_of_run g.sound g.supplied s (g.function ▸ hrun)
  obtain ⟨hcomes, hdeparts⟩ := hcross (fun _ => True) fun _ _ _ => trivial
  obtain ⟨n, hretires⟩ := hcomes.retires hb hdeparts
  obtain ⟨first', b₁, hfirst', -, hb₁, hguest, -⟩ := g.sound.ready.first
  obtain rfl := Option.some.inj (hfirst.symm.trans hfirst')
  refine ⟨first, n, g', hfirst, Nat.lt_of_lt_of_le hguest.instructionCount_pos
    (hretires.first_le hb₁), hretires, hleft.pc, hleft.mem, fun hcount => ?_, fun hzero => ?_⟩
  · have hicnt : m.state.icnt = g'.icnt := hleft.unit .icnt
    rw [hicnt, hretires.icnt_eq hcount]
    rfl
  · refine hleft.state_eq ?_
    rw [Lowering.reg_zero_of_passes hdeparts.pass, hcomes.reg_zero, State.enter_of_zero hzero]
    rfl

/-- A run of a compiled region retires at least one instruction. -/
theorem Compiled.From.retires (hfrom : region.From config .eval fun i => i.2 ≠ entryMark) :
    ∃ profile p, profile.Interpreted ∧ prepare config profile region.entry = .ok p ∧
      p.region.Begins ∧ ∀ fuel s exit t, region.invoke fuel s = .exited exit t →
        ∃ first n g, p.region.firstBlock? = some first ∧ 0 < n ∧
          Lowering.Retires (p.scope config) first (s.enter region.entry) n g ∧ t.pc = g.pc ∧
          t.mem = g.mem ∧ (config.countInstructions = true → t.icnt = s.icnt + UInt64.ofNat n) ∧
          (s.reg .zero = 0 → t = g) := by
  obtain ⟨profile, hp, hmark, hcompile⟩ := hfrom
  obtain ⟨p, f, code, hprepare, hf, -⟩ := compile_eq_ok.1 hcompile
  have hprepares := prepares_of_prepare hp hmark hprepare
  refine ⟨profile, p, hp, hprepare, hprepares.begins, fun fuel s exit t hrun => ?_⟩
  obtain ⟨f', ⟨g⟩⟩ := hprepares.generated rfl
  rw [invoke_eq hprepare g.generate hcompile] at hrun
  obtain ⟨m, hwatched, rfl⟩ := evaluate_eq_exited hrun
  obtain ⟨first, n, g', hfirst, hpos, hretires, hpc, hmem, hcount, hstate⟩ := g.retires hwatched
  rw [hprepares.entryAddr] at hretires
  exact ⟨first, n, g', hfirst, hpos, hretires, hpc, hmem, hcount, hstate⟩

/-! ## Engines -/

namespace Engine

variable {e : Engine} {before : List Event}

/-- In every run of an engine that has recorded no instruction at the address of the synthetic entry,
before or during the run: each region that is built begins with a guest block and has no other block
at that address, and each region that is run retires at least one instruction. -/
theorem regions_make_progress (hcalls : Calls (.new config .eval) before e) (fuel : Nat) (s : State)
    (maxBlocks : Nat)
    (hmark : ∀ event ∈ before ++ e.runLog fuel s maxBlocks, ∀ i ∈ event.recorded, i.2 ≠ entryMark) :
    (∀ profile entry p, .tried profile entry ∈ before ++ e.runLog fuel s maxBlocks →
      prepare config profile entry = .ok p → p.region.entryAddr = entry ∧ p.region.Begins) ∧
    ∀ region s₁, .invoked region s₁ ∈ before ++ e.runLog fuel s maxBlocks →
      ∃ profile p, profile.Interpreted ∧ prepare config profile s₁.pc = .ok p ∧ p.region.Begins ∧
        ∀ fuel exit t, region.invoke fuel s₁ = .exited exit t →
          ∃ first n g, p.region.firstBlock? = some first ∧ 0 < n ∧
            Lowering.Retires (p.scope config) first (s₁.enter s₁.pc) n g ∧ t.pc = g.pc ∧
            t.mem = g.mem ∧ (config.countInstructions = true → t.icnt = s₁.icnt + UInt64.ofNat n) ∧
            (s₁.reg .zero = 0 → t = g) := by
  -- Nothing recorded before this run or in it is marked, so no region has a marked source.
  obtain ⟨hbefore, hrun⟩ := List.forall_mem_append.1 hmark
  obtain ⟨hstocked, hpast⟩ := hcalls.stocked stocked_new hbefore
  have hfrom := List.forall_mem_append.2 ⟨hpast, ends_of_run.stocked hstocked hrun⟩
  refine ⟨fun profile entry p htried hprepare => ?_, fun region s₁ hinvoked => ?_⟩
  · obtain ⟨hp, hunmarked⟩ := hfrom _ htried
    have hprepares := prepares_of_prepare hp hunmarked hprepare
    exact ⟨hprepares.entryAddr, hprepares.begins⟩
  · obtain ⟨hregion, hentry⟩ := hfrom _ hinvoked
    rw [← hentry]
    obtain ⟨profile, p, hp, hprepare, hbegins, hretires⟩ := hregion.retires
    exact ⟨profile, p, hp, hprepare, hbegins, fun fuel => hretires fuel s₁⟩

/-- No event records an instruction at the address of the synthetic entry. -/
theorem unmarked_of_all {log : List Event}
    (h : (log.all fun event => event.recorded.all (·.2 != entryMark)) = true) :
    ∀ event ∈ log, ∀ i ∈ event.recorded, i.2 ≠ entryMark := by
  intro event hevent i hi
  simpa using List.all_eq_true.1 (List.all_eq_true.1 h event hevent) i hi

/-- An engine builds the region of a loop and runs it, and instructions retire. -/
theorem regions_make_progress_countdown : ∃ region s₁,
    .invoked region s₁ ∈ eager.runLog 10 Profile.countdownStart 2 ∧
      ∀ exit t, region.invoke 10 s₁ = .exited exit t → ∃ n, 0 < n ∧ t.icnt = s₁.icnt + UInt64.ofNat n := by
  have hprogress := (regions_make_progress (e := eager) .none 10 Profile.countdownStart 2
    (unmarked_of_all (by decide +kernel))).2
  have hinvoked : ((eager.runLog 10 Profile.countdownStart 2).any Event.isInvoked) = true := by
    decide +kernel
  obtain ⟨event, hevent, hkind⟩ := List.any_eq_true.1 hinvoked
  cases event with
  | invoked region s₁ =>
    refine ⟨region, s₁, hevent, fun exit t hrun => ?_⟩
    obtain ⟨_, _, -, -, -, hretires⟩ := hprogress region s₁ hevent
    obtain ⟨_, n, _, -, hpos, -, -, -, hcount, -⟩ := hretires 10 exit t hrun
    exact ⟨n, hpos, hcount rfl⟩
  | interpreted => cases hkind
  | tried => cases hkind

/-- A machine at a jump that lies at the address of the synthetic entry. -/
def markedStart : State :=
  (State.initial (Profile.countdownState.mem.loadWords entryMark [0x03e00008, 0])
    entryMark).setReg .ra 0x20

/-- The engine interprets the jump at the address of the synthetic entry and builds a region there.
That has no first block: when the guest comes back, the region is run over and over and the guest
stays where it is, although the machine could go on. -/
theorem marked_entry_stays : ∃ e p e' t,
    e = (eager.run 10 markedStart 1).engine ∧
      prepare eager.config e.profile entryMark = .ok p ∧ p.region.firstBlock? = none ∧
      e.cache.contains entryMark = true ∧
      e.tryExecute 10 markedStart = .ok (e', t, false) ∧ e'.stats.invocations = 64 ∧
      t.pc = markedStart.pc ∧ t.icnt = markedStart.icnt ∧
      (Machine.step Machine.defaultLimit markedStart).1.isOk = true := by
  have hregion : (match prepare eager.config (eager.run 10 markedStart 1).engine.profile entryMark with
      | .error _ => false
      | .ok p => p.region.firstBlock?.isNone) = true := by decide +kernel
  have hstays : (match (eager.run 10 markedStart 1).engine.tryExecute 10 markedStart with
      | .error _ => false
      | .ok r => r.1.stats.invocations == 64 && r.2.1.pc == markedStart.pc &&
          r.2.1.icnt == markedStart.icnt && !r.2.2) = true := by decide +kernel
  split at hregion
  · cases hregion
  next p hp =>
  split at hstays
  · cases hstays
  next r hr =>
  obtain ⟨e', t, left⟩ := r
  simp only [Bool.and_eq_true, beq_iff_eq, Bool.not_eq_true'] at hstays
  obtain ⟨⟨⟨hcount, hpc⟩, hicnt⟩, rfl⟩ := hstays
  exact ⟨_, p, e', t, rfl, hp, Option.isNone_iff_eq_none.1 hregion, by decide +kernel, hr, hcount,
    hpc, hicnt, by decide +kernel⟩

end Engine

end HotRegion
