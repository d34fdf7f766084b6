import HotRegion.Proofs.Machine.BlockRun

/-!
# Blocks as single steps

The limit on the length of a block has no influence on what the machine does. A block of any length
is a run of steps of length one that give the same words, and a block that faults stops where one of
them does. This holds whatever the block stores over its own words: both runs fetch a word when they
get to it.

## Key results

- `Runs.walks`: straight code as single steps
- `step_walks`: blocks as single steps
- `reaches_of_step_ok`, `reaches_of_step_error`: the same without the traces
-/

namespace HotRegion.Machine

open Isa

variable {s t u : State} {words : List UInt32} {fault : Fault} {limit left : Nat}
  {trace : Trace} {traces traces' : List Trace}

/-- Steps of length one lead from `s` to `t` and give the traces in order. -/
inductive Walks : List Trace → State → State → Prop where
  | nil (s : State) : Walks [] s s
  | cons {trace : Trace} {traces : List Trace} {s t u : State} (h : step 1 s = (.ok trace, t))
      (rest : Walks traces t u) : Walks (trace :: traces) s u

/-- A walk may go on with a walk. -/
theorem Walks.append (h : Walks traces s t) (h' : Walks traces' t u) :
    Walks (traces ++ traces') s u := by
  induction h with
  | nil => exact h'
  | cons hstep _ ih => exact .cons hstep (ih h')

/-- A walk reaches its end in as many steps as it has blocks. -/
theorem Walks.reaches (h : Walks traces s t) : Reaches traces.length s t := by
  induction h with
  | nil s => exact .refl s
  | cons hstep _ ih => exact .head hstep ih

/-- Straight code takes one step for each word. -/
theorem Runs.walks (h : Runs words s t) :
    ∃ traces, traces.length = words.length ∧ Walks traces s t ∧
      traces.flatMap (·.code) = (⟨s.pc, words⟩ : Trace).code := by
  induction h with
  | nil s => exact ⟨[], rfl, .nil s, rfl⟩
  | @cons s _ _ words flow run _ ih =>
    obtain ⟨traces, hlength, hwalks, hcode⟩ := ih
    refine ⟨_, ?_, .cons (step_one_of_straight flow run) hwalks, ?_⟩
    · rw [List.length_cons, List.length_cons, hlength]
    · rw [List.flatMap_cons, hcode]
      exact (Trace.code_append s.pc [s.mem.readWord s.pc] words).symm

/-- What makes a block fault makes a step of length one fault. -/
theorem Ends.step_error (h : Ends (left + 1) u (.error fault) t) : step 1 u = (.error fault, t) := by
  cases h with
  | fault _ flow run => simp [step, stepWords, flow, run]
  | transfer _ flow run => simp [step, stepWords, flow, run]

/-- A long block is a walk of blocks of one instruction or transfer each. -/
theorem walk_of_step_ok (h : step limit s = (.ok trace, t)) :
    ∃ traces, 1 ≤ traces.length ∧ Walks traces s t ∧ traces.flatMap (·.code) = trace.code := by
  obtain ⟨hentry, h⟩ := words_of_step_ok h
  have hcode : trace.code = (⟨s.pc, trace.words⟩ : Trace).code := by
    rw [← hentry]
  obtain ⟨hruns, hlength⟩ | ⟨before, last, u, hwords, -, hruns, hflow, hlast⟩ := course_of_ok h
  · -- The block has run to its limit, and every word is a step.
    obtain ⟨traces, hcount, hwalks, htraces⟩ := hruns.walks
    exact ⟨traces, by omega, hwalks, htraces.trans hcode.symm⟩
  · -- A transfer and its delay slot are one step, the last one.
    obtain ⟨traces, hcount, hwalks, htraces⟩ := hruns.walks
    have hone : Walks [⟨u.pc, last⟩] u t := .cons (step_one_of_transfer hflow hlast) (.nil t)
    refine ⟨traces ++ [⟨u.pc, last⟩], by simp, hwalks.append hone, ?_⟩
    rw [List.flatMap_append, htraces, hcode, hwords, Trace.code_append, hruns.pc]
    simp

/-- A fault in a long block is one at the end of such a walk. -/
theorem walk_of_step_error (h : step limit s = (.error fault, t)) :
    ∃ traces u, Walks traces s u ∧ step 1 u = (.error fault, t) := by
  obtain ⟨before, left, u, -, hruns, hends⟩ := course_of_error (words_of_step_error h)
  obtain ⟨traces, -, hwalks, -⟩ := hruns.walks
  exact ⟨traces, u, hwalks, hends.step_error⟩

/-- A block is a run of single steps. -/
theorem reaches_of_step_ok (h : step limit s = (.ok trace, t)) : ∃ k, 0 < k ∧ Reaches k s t := by
  obtain ⟨traces, hpos, hwalks, -⟩ := walk_of_step_ok h
  exact ⟨traces.length, hpos, hwalks.reaches⟩

/-- A block that faults is a run of single steps up to one that faults alike. -/
theorem reaches_of_step_error (h : step limit s = (.error fault, t)) :
    ∃ k u, Reaches k s u ∧ step 1 u = (.error fault, t) := by
  obtain ⟨traces, u, hwalks, hstep⟩ := walk_of_step_error h
  exact ⟨traces.length, u, hwalks.reaches, hstep⟩

/-- The limit on the length of a block does not change what the machine does. A block that does not
fault is one or more steps of length one, which leave the same state and give the same words at the
same addresses. A block that faults is any number of such steps and one more, which faults alike and
leaves the same state. -/
theorem step_walks (limit : Nat) (s : State) :
    (∀ trace t, step limit s = (.ok trace, t) →
      ∃ traces, 1 ≤ traces.length ∧ Walks traces s t ∧
        traces.flatMap (·.code) = trace.code) ∧
    ∀ fault t, step limit s = (.error fault, t) →
      ∃ traces u, Walks traces s u ∧ step 1 u = (.error fault, t) :=
  ⟨fun _ _ h => walk_of_step_ok h, fun _ _ h => walk_of_step_error h⟩

/-- A machine before `sw $9, 0x24($0)`, which stores `addiu $8, $8, 5` over the `nop` that follows,
and before a `syscall` after that. -/
def overwriting : State :=
  (State.initial ((Memory.zeroed 10 (by decide)).loadWords 0x20 [0xac090024, 0, 0x0000000c])
    0x20).setReg (.ofNat 9) 0x25080005

/-- Both the block and the single steps run the word that was stored, not the one it replaced. -/
theorem step_walks_overwriting :
    (step 2 overwriting = (.ok ⟨0x20, [0xac090024, 0x25080005]⟩, (step 2 overwriting).2) ∧
      ∃ traces, 1 ≤ traces.length ∧ Walks traces overwriting (step 2 overwriting).2 ∧
        traces.flatMap (·.code) = [(0xac090024, 0x20), (0x25080005, 0x24)]) ∧
    (step 8 overwriting = (.error (.syscall 0x28), (step 8 overwriting).2) ∧
      ∃ traces u, Walks traces overwriting u ∧
        step 1 u = (.error (.syscall 0x28), (step 8 overwriting).2)) := by
  have hok : (step 2 overwriting).1 = .ok ⟨0x20, [0xac090024, 0x25080005]⟩ := by rfl
  have hfault : (step 8 overwriting).1 = .error (.syscall 0x28) := by rfl
  exact ⟨⟨Prod.ext hok rfl, (step_walks 2 overwriting).1 _ _ (Prod.ext hok rfl)⟩,
    ⟨Prod.ext hfault rfl, (step_walks 8 overwriting).2 _ _ (Prod.ext hfault rfl)⟩⟩

end HotRegion.Machine
