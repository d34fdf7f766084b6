import HotRegion.Compile.Compiled
import HotRegion.Proofs.Ssa.Valid
import Mathlib

/-!
# Stages of a build

Building a region goes through stages, each of which may end it. A build that succeeds has passed
all of them, and one that is refused was refused at one of them.

## Key results

- `prepare_eq_ok`, `compile_eq_ok`: what the stages of a successful build made
- `not_seen_of_transient`: only an entry without a record is refused for now
-/

namespace HotRegion

open Ssa (bind_eq_ok mapError_eq_ok bind_eq_error mapError_eq_error forM_eq_error)

variable {config : Config} {backend : Backend} {profile : Profile} {entry : UInt32}
  {p : Prepared} {region : Compiled} {error : CompileError}

/-- The outcomes of the stages that make a prepared region. -/
structure Staged (config : Config) (profile : Profile) (entry : UInt32) (p : Prepared) where
  traces : List Machine.Trace
  found : Region
  shaped : Region × Nat × Nat × Nat
  placed : Region × Nat
  discover : profile.discover entry config.maxRegionBlocks = some traces
  ofTraces : Region.ofTraces traces profile.successors = .ok found
  compilable : found.checkCompilable config = .ok ()
  shape : found.shape config = .ok shaped
  precision : shaped.1.computeDominators.computeFpUsage.checkPrecision config = .ok ()
  usage : p.usage = .collect shaped.1.computeDominators.computeFpUsage config.countInstructions
  placePhis : shaped.1.computeDominators.computeFpUsage.placePhis p.usage = .ok placed
  region : p.region = placed.1
  entry : p.info.entry = entry

theorem ofGraph_eq_ok {α : Type} {x : Except Region.GraphError α} {a : α} :
    Failure.ofGraph x = .ok a ↔ x = .ok a := mapError_eq_ok

/-- A region that was prepared has passed all stages. -/
theorem prepare_eq_ok (h : prepare config profile entry = .ok p) :
    Nonempty (Staged config profile entry p) := by
  unfold prepare at h
  split at h
  · cases h
  · next traces hdiscover =>
    simp only [bind_eq_ok, mapError_eq_ok, ofGraph_eq_ok] at h
    obtain ⟨found, hfound, ⟨⟩, hcompilable, shaped, hshape, ⟨⟩, hprecision, placed, hplaced, h⟩ := h
    cases h
    exact ⟨⟨traces, found, shaped, placed, hdiscover, hfound, hcompilable, hshape, hprecision, rfl,
      hplaced, rfl, rfl⟩⟩

theorem compile_eq_ok : compile config backend profile entry = .ok region ↔
    ∃ p f code, prepare config profile entry = .ok p ∧ p.generate config = .ok f ∧
      backend.compile f = .ok code ∧ region = ⟨p.info, code⟩ := by
  simp only [compile, bind_eq_ok]
  constructor
  · rintro ⟨p, hp, f, hf, h⟩
    split at h
    · next code hcode =>
      cases h
      exact ⟨p, f, code, hp, hf, hcode, rfl⟩
    · cases h
  · rintro ⟨p, f, code, hp, hf, hcode, rfl⟩
    exact ⟨p, hp, f, hf, by rw [hcode]; rfl⟩

/-- A region is compiled for the entry that was asked for. -/
theorem compile_entry (h : compile config backend profile entry = .ok region) :
    region.entry = entry := by
  obtain ⟨p, f, code, hp, -, -, rfl⟩ := compile_eq_ok.1 h
  obtain ⟨staged⟩ := prepare_eq_ok hp
  exact staged.entry

/-! ## Refusals -/

theorem ofGraph_ne_refused {α : Type} {x : Except Region.GraphError α} :
    Failure.ofGraph x ≠ .error (.refused error) := by
  cases x <;> simp [Failure.ofGraph, Except.mapError]

/-- What is wrong with the code of a block stays wrong. -/
theorem isTransient_of_checkBlock {b : Region.Block} (h : Region.checkBlock config b = .error error) :
    error.isTransient = false := by
  rcases bind_eq_error.1 h with h | ⟨_, -, h⟩
  · obtain ⟨⟨word, addr⟩, -, h⟩ := forM_eq_error h
    simp only [Region.checkInstr] at h
    split at h
    · cases h
      rfl
    · split at h <;> cases h
      rfl
  · split at h
    · split at h <;> cases h
      rfl
    · cases h

/-- Only an entry without a record is refused for now. -/
theorem not_seen_of_transient (h : prepare config profile entry = .error (.refused error))
    (htransient : error.isTransient = true) : profile.trace? entry = none := by
  unfold prepare at h
  split at h
  · next hdiscover => simpa [Profile.discover] using hdiscover
  · simp only [bind_eq_error, mapError_eq_error, ofGraph_ne_refused, false_or, Failure.refused.injEq,
      exists_eq_right] at h
    obtain ⟨found, -, h | ⟨_, -, shaped, -, h | ⟨_, -, placed, -, h⟩⟩⟩ := h
    · obtain ⟨⟨i, b⟩, -, h⟩ := forM_eq_error h
      rw [isTransient_of_checkBlock h] at htransient
      cases htransient
    · simp only [Region.checkPrecision] at h
      split at h
      · cases h
      · split at h <;> cases h
        cases htransient
    · cases h

/-- A recorded entry is not refused only for now. -/
theorem compile_not_transient (hseen : profile.trace? entry ≠ none)
    (h : compile config backend profile entry = .error (.refused error)) :
    error.isTransient = false := by
  simp only [compile, bind_eq_error] at h
  rcases h with h | ⟨p, -, h | ⟨f, -, h⟩⟩
  · cases htransient : error.isTransient with
    | false => rfl
    | true => exact absurd (not_seen_of_transient h htransient) hseen
  · obtain ⟨_, -, h⟩ := mapError_eq_error.1 h
    cases h
  · split at h
    · cases h
    · cases h
      rfl

end HotRegion
