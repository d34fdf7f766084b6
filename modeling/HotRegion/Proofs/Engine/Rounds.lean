import HotRegion.Engine
import HotRegion.Proofs.Compile.Stages

/-!
# Rounds of an engine

What the steps of an engine can do, said once: a build, regions run one after the other, and a round
of a run, which is either compiled code or one interpreted block. A run that returns is a sequence
of rounds, and then it has done enough blocks or the next block faults.

## Key results

- `Engine.build_cases`: the outcomes of a build
- `Engine.runRounds_spec`: a run that returns is a sequence of rounds
-/

namespace HotRegion

open Machine (State Fault)
open Ssa (bind_eq_ok)

namespace Engine

/-- One round of a run: compiled code, or one interpreted block where there is none. -/
inductive Round (fuel : Nat) : Engine → State → Summary → Engine → State → Summary → Prop where
  | compiled {e : Engine} {s : State} {sum : Summary} {c : Chain}
    (hrun : e.runCompiled fuel s = .ok c) (hpos : 0 < c.invocations) :
    Round fuel e s sum c.engine c.state
      { sum with
        blocks := sum.blocks + c.invocations
        invocations := sum.invocations + c.invocations }
  | interpreted {e e' : Engine} {s s' : State} {sum : Summary} {c : Chain} {trace : Machine.Trace}
    (hrun : e.runCompiled fuel s = .ok c) (hnone : c.invocations = 0)
    (hstep : Machine.step Machine.defaultLimit c.state = (.ok trace, s'))
    (hlearn : c.engine.learn trace s'.pc = .ok e') :
    Round fuel e s sum e' s'
      { sum with blocks := sum.blocks + 1, interpreted := sum.interpreted + 1 }

/-- A number of rounds, each of them short of `maxBlocks` blocks before. -/
inductive Rounds (fuel maxBlocks : Nat) :
    Nat → Engine → State → Summary → Engine → State → Summary → Prop where
  | none {e : Engine} {s : State} {sum : Summary} : Rounds fuel maxBlocks 0 e s sum e s sum
  | round {n : Nat} {e e₁ e' : Engine} {s s₁ s' : State} {sum sum₁ sum' : Summary}
    (hless : sum.blocks < maxBlocks) (hround : Round fuel e s sum e₁ s₁ sum₁)
    (hrest : Rounds fuel maxBlocks n e₁ s₁ sum₁ e' s' sum') :
    Rounds fuel maxBlocks (n + 1) e s sum e' s' sum'

variable {e e' e₁ : Engine} {s s' s₁ : State} {fuel maxBlocks n : Nat} {sum sum' sum₁ : Summary}

/-! ## Builds -/

/-- The outcomes of a build: a region is cached, its entry was never seen, or it fails for good. -/
theorem build_cases {entry : UInt32} {status : Status} (h : e.build entry = .ok (e', status)) :
    (∃ region, compile e.config e.backend e.profile entry = .ok region ∧ status = .ready ∧
      e' = { e with
        cache := (e.cache.insert region).1
        stats := { e.stats with
          attempts := e.stats.attempts + 1
          compiled := e.stats.compiled + 1
          evictions := e.stats.evictions + (e.cache.insert region).2.toList.length } }) ∨
    ∃ error, compile e.config e.backend e.profile entry = .error (.refused error) ∧
      status = .failed error ∧
      ((error.isTransient = true ∧
        e' = { e with stats := { e.stats with attempts := e.stats.attempts + 1 } }) ∨
       (error.isTransient = false ∧
        e' = { e with
          cache := e.cache.markFailed entry error
          stats := { e.stats with
            attempts := e.stats.attempts + 1
            failed := e.stats.failed + 1 } })) := by
  unfold build at h
  split at h
  · next region hcompile =>
    cases h
    exact .inl ⟨region, hcompile, rfl, rfl⟩
  · next error hcompile =>
    split at h
    · next htransient =>
      cases h
      exact .inr ⟨error, hcompile, rfl, .inl ⟨htransient, rfl⟩⟩
    · next htransient =>
      cases h
      exact .inr ⟨error, hcompile, rfl, .inr ⟨by simpa using htransient, rfl⟩⟩
  · cases h

/-- The engine after it has noted an interpreted block. -/
def noted (e : Engine) (trace : Machine.Trace) (next : UInt32) : Engine :=
  { e with
    profile := e.profile.record trace next
    stats := { e.stats with interpreted := e.stats.interpreted + 1 } }

/-- An engine learns from a block by noting it and, when that is due, building its region. It has
seen the block then and the region is neither cached nor failed. -/
theorem learn_cases {trace : Machine.Trace} {next : UInt32} (h : e.learn trace next = .ok e') :
    e' = e.noted trace next ∨
    ∃ status, (e.noted trace next).build trace.entry = .ok (e', status) ∧
      e.cache.contains trace.entry = false ∧ e.cache.isFailed trace.entry = false := by
  unfold learn at h
  dsimp only at h
  split at h
  · next hdue =>
    simp only [isDue, Bool.and_eq_true, Bool.not_eq_true'] at hdue
    change ((e.noted trace next).build trace.entry).map (·.1) = .ok e' at h
    cases hbuild : (e.noted trace next).build trace.entry with
    | error cause =>
      rw [hbuild] at h
      cases h
    | ok built =>
      rw [hbuild] at h
      cases h
      exact .inr ⟨built.2, rfl, hdue.1.2, hdue.2⟩
  · cases h
    exact .inl rfl

theorem noted_seen (e : Engine) (trace : Machine.Trace) (next : UInt32) :
    (e.noted trace next).profile.trace? trace.entry ≠ none := by
  simp [noted, Profile.trace?, Profile.record]

/-! ## Rounds -/

/-- The block after a state faults, and no compiled code starts there. -/
structure Faults (fuel : Nat) (e : Engine) (s : State) (fault : Fault) (r : Run) : Prop where
  chain : ∃ c, e.runCompiled fuel s = .ok c ∧ c.invocations = 0 ∧
    Machine.step Machine.defaultLimit c.state = (.error fault, r.state) ∧ r.engine = c.engine
  outcome : r.outcome = .error (.fault fault)

/-- A run that returns is a sequence of rounds, and then it has done enough blocks or the next block
faults. -/
theorem runRounds_spec {rounds : Nat}
    (hreturn : ∀ cause, (runRounds fuel maxBlocks rounds e s sum).outcome ≠ .error (.crash cause)) :
    ∃ n e₁ s₁ sum₁, Rounds fuel maxBlocks n e s sum e₁ s₁ sum₁ ∧
      ((runRounds fuel maxBlocks rounds e s sum = ⟨e₁, s₁, .ok sum₁⟩ ∧
        (maxBlocks ≤ sum₁.blocks ∨ n = rounds)) ∨
       ∃ fault, Faults fuel e₁ s₁ fault (runRounds fuel maxBlocks rounds e s sum)) := by
  -- Induction on the rounds that are left.
  induction rounds generalizing e s sum with
  | zero => exact ⟨0, e, s, sum, .none, .inl ⟨rfl, .inr rfl⟩⟩
  | succ rounds ih =>
    unfold runRounds at hreturn ⊢
    by_cases henough : maxBlocks ≤ sum.blocks
    · simp only [henough, if_true]
      exact ⟨0, e, s, sum, .none, .inl ⟨rfl, .inl henough⟩⟩
    simp only [henough, if_false] at hreturn ⊢
    cases hrun : e.runCompiled fuel s with
    | error cause =>
      simp only [hrun] at hreturn
      exact absurd rfl (hreturn cause)
    | ok c =>
      simp only [hrun] at hreturn ⊢
      by_cases hpos : 0 < c.invocations
      · simp only [hpos, if_true] at hreturn ⊢
        obtain ⟨n, e₁, s₁, sum₁, hrounds, hend⟩ := ih hreturn
        refine ⟨n + 1, e₁, s₁, sum₁, .round (Nat.lt_of_not_le henough) (.compiled hrun hpos) hrounds,
          hend.imp_left fun ⟨heq, hn⟩ => ⟨heq, hn.imp_right (congrArg (· + 1))⟩⟩
      simp only [hpos, if_false] at hreturn ⊢
      have hnone : c.invocations = 0 := Nat.eq_zero_of_not_pos hpos
      rcases hstep : Machine.step Machine.defaultLimit c.state with ⟨fault | trace, t⟩
      · exact ⟨0, e, s, sum, .none, .inr ⟨fault, ⟨c, hrun, hnone, hstep, rfl⟩, rfl⟩⟩
      · simp only [hstep] at hreturn ⊢
        cases hlearn : c.engine.learn trace t.pc with
        | error cause =>
          simp only [hlearn] at hreturn
          exact absurd rfl (hreturn (.broken cause))
        | ok e₂ =>
          simp only [hlearn] at hreturn ⊢
          obtain ⟨n, e₁, s₁, sum₁, hrounds, hend⟩ := ih hreturn
          exact ⟨n + 1, e₁, s₁, sum₁,
            .round (Nat.lt_of_not_le henough) (.interpreted hrun hnone hstep hlearn) hrounds,
            hend.imp_left fun ⟨heq, hn⟩ => ⟨heq, hn.imp_right (congrArg (· + 1))⟩⟩

end Engine

end HotRegion
