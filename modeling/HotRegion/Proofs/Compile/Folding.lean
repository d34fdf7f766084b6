import HotRegion.Proofs.Compile.Refinement
import HotRegion.Proofs.Lowering.Constants
import HotRegion.Proofs.Ssa.Safety

/-!
# Folding constants

The function of a region that is generated with constant folding and the one that is generated
without it do the same. Either of them exits exactly if the guest leaves the region, and where that
is does not depend on the function. Only the reason of an exit may differ: a register jump to a
constant leaves the region for its target, and otherwise because it hit no successor.

## Key results

- `Generated.exits_alike`: functions of one region exit alike
- `folding_preserves_runs`: constant folding changes no result
-/

namespace HotRegion

open Machine (State)
open Region (Slot Departure entryMark)
open Lowering (Comes Departs Left Point Scope)
open Ssa (Watched Exit ExitReason bind_eq_ok)

variable {config config' : Config} {profile : Profile} {entry : UInt32} {p : Prepared}
  {f f' : Ssa.Function} {K K' : UInt32 × UInt32 → Prop} {s t : State} {e e' : Exit} {m m' : Watched}
  {fuel : Nat}

/-! ## Exits of one region -/

/-- A generated function does not get stuck. -/
theorem Generated.run_ne_stuck (g : Generated p config K f) (fuel : Nat) (s : State)
    (cause : Ssa.Stuck) : Ssa.run fuel f (⟨s, []⟩ : Watched) ≠ .stuck cause := by
  obtain ⟨fr, first, -, -, -, hend, hstart⟩ := g.laid.exists_start g.sound s
  rw [← g.function] at hstart
  obtain ⟨b, hb, -⟩ := g.laid.exists_block hend.lt
  have hentry : f.block? Ssa.Function.entry = some b := by
    rw [g.function]
    exact hb
  intro hstuck
  -- It would be stuck in the entry block already.
  have hone : Ssa.run (0 + 1) f (⟨s, []⟩ : Watched) = .stuck cause :=
    (Ssa.run_eq_stuck_iff g.valid hentry).2
      ⟨Nat.one_pos, ((Ssa.run_eq_stuck_iff g.valid hentry).1 hstuck).2⟩
  rw [hstart 0] at hone
  cases hone

/-- The function of a region does not get stuck. -/
theorem Generated.evaluate_ne_stuck (g : Generated p config K f) (fuel : Nat) (s : State)
    (cause : Ssa.Stuck) : Backend.evaluate f fuel s ≠ .stuck cause := by
  intro hstuck
  simp only [Backend.evaluate, Ssa.run_watched] at hstuck
  cases hrun : Ssa.run fuel f (⟨s, []⟩ : Watched) with
  | exited => rw [hrun] at hstuck; cases hstuck
  | outOfFuel => rw [hrun] at hstuck; cases hstuck
  | stuck cause' => exact g.run_ne_stuck fuel s cause' hrun

/-- More fuel does not change a run that ends. -/
theorem evaluate_mono {fuel' : Nat} (h : Backend.evaluate f fuel s = .exited e t)
    (hle : fuel ≤ fuel') : Backend.evaluate f fuel' s = .exited e t := by
  obtain ⟨m, hrun, rfl⟩ := evaluate_eq_exited h
  have hmore : Ssa.run fuel' f (⟨s, []⟩ : Watched) = .exited e m := Ssa.runFrom_mono hrun hle
  simp only [Backend.evaluate, Ssa.run_watched, hmore]
  rfl

/-! ## Reasons -/

namespace Lowering.Scope

variable {c c' : Scope} {x : Slot} {b : Region.Block} {ending ending' : Lowering.Ending}
  {reason reason' : ExitReason} {V V' : Ssa.Value → UInt64} {g : State} {out : Departure}

/-- The reason of an exit by the end of its block. -/
theorem Final.reason_cases (h : c.Final x b ending reason) :
    (b.transfer = none ∧ reason = if b.isPatch then .branchTarget else .fallthrough) ∨
    ∃ tr, b.transfer = some tr ∧
      ((∃ taken notTaken likely, tr.control = .branch taken notTaken likely ∧
          (reason = .branchTarget ∨ reason = if likely then .likelyUntaken else .fallthrough)) ∨
        (∃ target, tr.control = .jump target ∧ reason = .branchTarget) ∨
        tr.control = .jumpReg ∧ (reason = .indirectMiss ∨
          reason = .branchTarget ∧ c.config.foldConstants = true)) := by
  -- Each final ending belongs to one kind of transfer, and that gives the reason.
  cases h with
  | here of _ =>
    rcases of with ⟨hnone, heq⟩ | ⟨tr, htr, rfl, hctl | ⟨hctl, hfold, -⟩⟩
    · exact .inl ⟨hnone, (Lowering.Ending.goto.inj heq).2⟩
    · exact .inr ⟨tr, htr, .inr (.inl ⟨_, hctl, rfl⟩)⟩
    · exact .inr ⟨tr, htr, .inr (.inr ⟨hctl, .inr ⟨rfl, hfold⟩⟩)⟩
  | taken of _ =>
    obtain ⟨tr, htr, hctl⟩ := of
    exact .inr ⟨tr, htr, .inl ⟨_, _, _, hctl, .inl rfl⟩⟩
  | untaken of _ why =>
    obtain ⟨tr, htr, hctl⟩ := of
    exact .inr ⟨tr, htr, .inl ⟨_, _, _, hctl, .inr why⟩⟩
  | missed of _ =>
    obtain ⟨-, tr, htr, hctl⟩ := of
    exact .inr ⟨tr, htr, .inr (.inr ⟨hctl, .inl rfl⟩)⟩

/-- A block is left for one reason, with folding and without it. Only a register jump may have
another one if its target is known. -/
theorem Final.reason_eq (h : c.Final x b ending reason) (hold : ending.Holds V g out)
    (h' : c'.Final x b ending' reason') (hold' : ending'.Holds V' g out)
    (hplain : c'.config.foldConstants = false) :
    reason = reason' ∨ reason = .branchTarget ∧ reason' = .indirectMiss ∧
      ∃ tr, b.transfer = some tr ∧ tr.control = .jumpReg := by
  -- Both go where the guest goes.
  have htaken : Lowering.isTaken reason = Lowering.isTaken reason' := by
    have hout := (h.next_eq hold).1.symm.trans (h'.next_eq hold').1
    exact congrArg Region.Departure.taken hout
  rcases h.reason_cases with ⟨hnone, rfl⟩ | ⟨tr, htr, hcases⟩
  · rcases h'.reason_cases with ⟨-, rfl⟩ | ⟨tr, htr, -⟩
    · exact .inl rfl
    · cases hnone.symm.trans htr
  · rcases h'.reason_cases with ⟨hnone, -⟩ | ⟨tr', htr', hcases'⟩
    · cases hnone.symm.trans htr
    obtain rfl := Option.some.inj (htr.symm.trans htr')
    rcases hcases with ⟨taken, notTaken, likely, hctl, hreason⟩ | ⟨target, hctl, rfl⟩ |
      ⟨hctl, hreason⟩
    · rcases hcases' with ⟨taken', notTaken', likely', hctl', hreason'⟩ | ⟨_, hctl', -⟩ | ⟨hctl', -⟩
      · cases hctl.symm.trans hctl'
        refine .inl ?_
        rcases hreason with rfl | rfl <;> rcases hreason' with rfl | rfl <;> cases likely <;>
          first | rfl | cases htaken
      · cases hctl.symm.trans hctl'
      · cases hctl.symm.trans hctl'
    · rcases hcases' with ⟨_, _, _, hctl', -⟩ | ⟨_, -, rfl⟩ | ⟨hctl', -⟩
      · cases hctl.symm.trans hctl'
      · exact .inl rfl
      · cases hctl.symm.trans hctl'
    · rcases hcases' with ⟨_, _, _, hctl', -⟩ | ⟨_, hctl', -⟩ | ⟨-, rfl | ⟨-, hfold⟩⟩
      · cases hctl.symm.trans hctl'
      · cases hctl.symm.trans hctl'
      · rcases hreason with rfl | ⟨rfl, -⟩
        · exact .inl rfl
        · exact .inr ⟨rfl, rfl, tr, htr, hctl⟩
      · rw [hplain] at hfold
        cases hfold

end Lowering.Scope

/-! ## Ways out -/

/-- The guest that enters the region at `s` leaves it out of the block `b` in slot `x`, at `g`. -/
structure Lowering.Scope.Crosses (c : Scope) (s : State) (x : Slot) (b : Region.Block) (g : State) :
    Prop where
  block : c.region.block? x = some b
  way : ∃ first h out, c.region.firstBlock? = some first ∧
    Comes c (fun _ => True) first (s.enter c.region.entryAddr) x h ∧
    Departs c (fun _ => True) b h g out

/-- A generated function exits where the guest leaves the region, and so does every other one of the
region. -/
theorem Generated.exits_alike (g : Generated p config K f) (g' : Generated p config' K' f')
    (hcount : config'.countInstructions = config.countInstructions)
    (h : Backend.evaluate f fuel s = .exited e t) :
    ∃ fuel' e' x b g₁, Backend.evaluate f' fuel' s = .exited e' t ∧ e'.pc = e.pc ∧
      (p.scope config).Crosses s x b g₁ ∧ g₁.pc = e.pc ∧
      (config'.foldConstants = false → e.reason = e'.reason ∨
        e.reason = .branchTarget ∧ e'.reason = .indirectMiss ∧
          ∃ tr, b.transfer = some tr ∧ tr.control = .jumpReg) := by
  obtain ⟨m, hrun, rfl⟩ := evaluate_eq_exited h
  obtain ⟨first, x, b, h₁, g₁, out, hfirst, hb, hleft, -, hcross⟩ :=
    g.laid.crosses_of_run g.sound g.supplied s (g.function ▸ hrun)
  obtain ⟨hcomes, hdeparts⟩ := hcross (fun _ => True) fun _ _ _ => trivial
  -- The other function takes the guest the same way.
  have hcomes' : Comes (p.scope config') (fun _ => True) first (s.enter p.region.entryAddr) x h₁ :=
    hcomes.congr rfl hcount
  have hdeparts' : Departs (p.scope config') (fun _ => True) b h₁ g₁ out := by
    refine ⟨?_, hdeparts.leaves⟩
    have hpass := hdeparts.pass
    rw [p.scope_config] at hpass ⊢
    rw [hcount]
    exact hpass
  obtain ⟨fuel', e', m', hrun'⟩ :=
    g'.laid.run_of_crosses g'.sound g'.supplied s hfirst hcomes' hb hdeparts'
  obtain ⟨first', x', b', h', g₁', out', hfirst', hb', hleft', -, hcross'⟩ :=
    g'.laid.crosses_of_run g'.sound g'.supplied s hrun'
  obtain ⟨hcomes₂, hdeparts₂⟩ := hcross' (fun _ => True) fun _ _ _ => trivial
  obtain rfl := Option.some.inj (hfirst.symm.trans hfirst')
  obtain ⟨rfl, rfl, rfl, rfl⟩ := Departs.unique hcomes' hb hdeparts' hcomes₂ hb' hdeparts₂
  obtain rfl := Option.some.inj (hb.symm.trans hb')
  refine ⟨fuel', e', x, b, g₁, ?_, hleft'.pc.trans hleft.pc.symm,
    ⟨hb, first, h₁, out, hfirst, hcomes, hdeparts⟩, hleft.pc.symm, fun hplain => ?_⟩
  · rw [← g'.function] at hrun'
    simp only [Backend.evaluate, Ssa.run_watched, hrun']
    have hstate : { m'.state with pc := e'.pc } = { m.state with pc := e.pc } := by
      refine State.ext_units (hleft'.pc.trans hleft.pc.symm) (hleft'.mem.trans hleft.mem.symm) ?_
      intro u
      have hunit : m'.state.unit u = m.state.unit u := by rw [hleft'.unit u, hleft.unit u]
      exact (State.unit_pc _ _ u).trans (hunit.trans (State.unit_pc _ _ u).symm)
    exact congrArg (Ssa.Outcome.exited e') hstate
  · obtain ⟨ending, V, hfinal, hhold⟩ := hleft.final
    obtain ⟨ending', V', hfinal', hhold'⟩ := hleft'.final
    exact hfinal.reason_eq hhold hfinal' hhold' hplain

/-! ## Folding -/

/-- The configuration with constant folding or without it. -/
def Config.folding (config : Config) (fold : Bool) : Config := { config with foldConstants := fold }

/-- Constant folding changes no result. The functions that are generated for a prepared region with
folding and without it either both run on for ever or both exit at the same address and in the same
state, for the same reason unless the guest leaves the region by a register jump. Whatever register
the walk takes for a constant at a point of a block holds it each time the guest comes there. -/
theorem folding_preserves_runs (hp : profile.Interpreted)
    (hmark : ∀ i, profile.Seen i → i.2 ≠ entryMark)
    (hprepare : prepare config profile entry = .ok p) :
    ∃ folded plain, p.generate (config.folding true) = .ok folded ∧
      p.generate (config.folding false) = .ok plain ∧
      (∀ s : State,
        (∀ fuel, Backend.evaluate folded fuel s = .outOfFuel ∧
          Backend.evaluate plain fuel s = .outOfFuel) ∨
        ∃ fuel e e' t, Backend.evaluate folded fuel s = .exited e t ∧
          Backend.evaluate plain fuel s = .exited e' t ∧ e.pc = e'.pc ∧
          (e.reason = e'.reason ∨ e.reason = .branchTarget ∧ e'.reason = .indirectMiss ∧
            ∃ x b g tr, (p.scope (config.folding true)).Crosses s x b g ∧ g.pc = e.pc ∧
              b.transfer = some tr ∧ tr.control = .jumpReg)) ∧
      ∀ (fold : Bool) (s : State) (first x : Slot) (b : Region.Block) (h g : State) (point : Point)
        (r : Isa.Gpr) (v : UInt32), p.region.firstBlock? = some first →
        Comes (p.scope (config.folding fold)) (fun _ => True) first (s.enter p.region.entryAddr) x h →
        p.region.block? x = some b → point.At config.countInstructions b h g →
        (p.scope (config.folding fold)).Knows x point r v → g.reg r = v := by
  have hprepares := prepares_of_prepare hp hmark hprepare
  have hgenerated : ∀ fold, ∃ f, Nonempty (Generated p (config.folding fold)
      (fun i => profile.Compilable i ∧ p.region.HasCode i) f) := fun fold => hprepares.generated rfl
  obtain ⟨folded, ⟨g⟩⟩ := hgenerated true
  obtain ⟨plain, ⟨g'⟩⟩ := hgenerated false
  refine ⟨folded, plain, g.generate, g'.generate, fun s => ?_, ?_⟩
  -- Where one function exits the other one does, with more fuel at most; so they also run on
  -- together.
  · by_cases hexits : ∃ fuel e t, Backend.evaluate folded fuel s = .exited e t
    · obtain ⟨fuel, e, t, hrun⟩ := hexits
      obtain ⟨fuel', e', x, b, g₁, hrun', hpc, hcrosses, hg₁, hreason⟩ :=
        g.exits_alike g' rfl hrun
      refine .inr ⟨max fuel fuel', e, e', t, evaluate_mono hrun (Nat.le_max_left ..),
        evaluate_mono hrun' (Nat.le_max_right ..), hpc.symm, ?_⟩
      rcases hreason rfl with hsame | ⟨htarget, hmiss, tr, htr, hctl⟩
      · exact .inl hsame
      · exact .inr ⟨htarget, hmiss, x, b, g₁, tr, hcrosses, hg₁, htr, hctl⟩
    · refine .inl fun fuel => ⟨?_, ?_⟩
      · cases hrun : Backend.evaluate folded fuel s with
        | exited e t => exact absurd ⟨fuel, e, t, hrun⟩ hexits
        | stuck cause => exact absurd hrun (g.evaluate_ne_stuck fuel s cause)
        | outOfFuel => rfl
      · cases hrun : Backend.evaluate plain fuel s with
        | exited e t =>
          obtain ⟨fuel', e', _, _, _, hrun', -⟩ := g'.exits_alike g rfl hrun
          exact absurd ⟨fuel', e', t, hrun'⟩ hexits
        | stuck cause => exact absurd hrun (g'.evaluate_ne_stuck fuel s cause)
        | outOfFuel => rfl
  · intro fold s first x b h g₁ point r v hfirst hcomes hb hat hknows
    obtain ⟨f, ⟨gf⟩⟩ := hgenerated fold
    exact Comes.reg_of_knows gf.sound hfirst hcomes hb hat hknows

/-- A jump to an address that the instruction before it sets. -/
def Profile.computedCode : List UInt32 := [0x24080030, 0x01000008, 0x24090001]

/-- A machine before the jump. -/
def Profile.computedStart : State := .initial (countdownState.mem.loadWords 0x20 computedCode) 0x20

/-- The profile after the jump. -/
def Profile.computed : Profile :=
  empty.record ⟨0x20, computedCode⟩ (Machine.step 5 computedStart).2.pc

/-- The profile of the example comes from a run. -/
theorem Profile.interpreted_computed : computed.Interpreted :=
  Interpreted.empty.step (by decide +kernel)

/-- Nothing of the example is recorded at the address that marks the entry. -/
theorem Profile.unmarked_computed (i : UInt32 × UInt32) (h : computed.Seen i) :
    i.2 ≠ entryMark := by
  have hall : (Region.Block.ofTrace ⟨0x20, computedCode⟩).code.all (·.2 != entryMark) = true := by
    decide
  simpa using List.all_eq_true.1 hall i ((seen_record h).resolve_right (not_seen_empty i))

/-- Why the function that is generated for the jump exits within ten blocks. -/
def Profile.computedReason (fold : Bool) : Except Failure (Option ExitReason) := do
  let p ← prepare .standard computed 0x20
  let f ← p.generate (Config.standard.folding fold)
  match Backend.evaluate f 10 computedStart with
  | .exited e _ => return some e.reason
  | _ => return none

/-- The computed reason is that of a run. -/
theorem Profile.exits_of_computedReason {fold : Bool} {reason : ExitReason}
    (h : computedReason fold = .ok (some reason)) : ∃ p f e t,
      prepare .standard computed 0x20 = .ok p ∧ p.generate (Config.standard.folding fold) = .ok f ∧
        Backend.evaluate f 10 computedStart = .exited e t ∧ e.reason = reason := by
  obtain ⟨p, hp, h⟩ := bind_eq_ok.1 h
  obtain ⟨f, hf, h⟩ := bind_eq_ok.1 h
  split at h
  · next e t hrun =>
    cases h
    exact ⟨p, f, e, t, hp, hf, hrun, rfl⟩
  · cases h

/-- With folding the guest leaves for a known target, and without it the target is one that the
region does not hold. Either function exits at the same address and in the same state. -/
theorem folding_preserves_runs_computed : ∃ p folded plain fuel e e' t,
    prepare .standard .computed 0x20 = .ok p ∧
      p.generate (Config.standard.folding true) = .ok folded ∧
      p.generate (Config.standard.folding false) = .ok plain ∧
      Backend.evaluate folded fuel Profile.computedStart = .exited e t ∧
      Backend.evaluate plain fuel Profile.computedStart = .exited e' t ∧ e.pc = e'.pc ∧
      e.reason = .branchTarget ∧ e'.reason = .indirectMiss := by
  have hreason : Profile.computedReason true = .ok (some .branchTarget) := by decide +kernel
  have hreason' : Profile.computedReason false = .ok (some .indirectMiss) := by decide +kernel
  obtain ⟨p, f, e, t, hprepare, hf, hrun, he⟩ := Profile.exits_of_computedReason hreason
  obtain ⟨p', f', e', t', hprepare', hf', hrun', he'⟩ := Profile.exits_of_computedReason hreason'
  obtain rfl := Except.ok.inj (hprepare.symm.trans hprepare')
  obtain ⟨folded, plain, hfolded, hplain, halike, -⟩ :=
    folding_preserves_runs Profile.interpreted_computed Profile.unmarked_computed hprepare
  obtain rfl := Except.ok.inj (hf.symm.trans hfolded)
  obtain rfl := Except.ok.inj (hf'.symm.trans hplain)
  rcases halike Profile.computedStart with hendless | ⟨fuel, d, d', u, hd, hd', hpc, -⟩
  · cases hrun.symm.trans (hendless 10).1
  · -- Both exits are those that were computed.
    cases (evaluate_mono hrun (Nat.le_max_right fuel 10)).symm.trans
      (evaluate_mono hd (Nat.le_max_left fuel 10))
    cases (evaluate_mono hrun' (Nat.le_max_right fuel 10)).symm.trans
      (evaluate_mono hd' (Nat.le_max_left fuel 10))
    exact ⟨p, f, f', fuel, e, e', t, hprepare, hf, hf', hd, hd', hpc, he, he'⟩

end HotRegion
