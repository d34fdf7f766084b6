import HotRegion.Profile
import HotRegion.Proofs.Machine.Traces
import HotRegion.Proofs.Region.Shape

/-!
# Profiles of interpreted code

A profile that interpretation has filled holds traces as the machine makes them: each is listed under
its own entry and has its control transfer right before its end. Discovery collects such traces, the
one of the entry first and no two with the same entry.

## Key results

- `Interpreted.trace_spec`: the traces of such a profile
- `discover_spec`: the traces of a region
-/

namespace HotRegion

open Machine (State Trace)
open Region (Block)

/-! ## Traces of the machine -/

/-- A trace of the machine starts at the program counter and has the shape of a block. -/
theorem Machine.trace_of_step {limit : Nat} {s t : State} {trace : Trace}
    (h : Machine.step limit s = (.ok trace, t)) :
    trace.entry = s.pc ∧ (Block.ofTrace trace).Shaped := by
  obtain ⟨hentry, hwords⟩ := Machine.words_of_step_ok h
  refine ⟨hentry, ?_, fun i w hw hflow => Machine.stepWords_position hwords hw hflow⟩
  rw [show max limit 1 = max limit 1 - 1 + 1 by omega] at hwords
  exact Machine.stepWords_ne_nil hwords

namespace Profile

variable {p : Profile} {t u : Trace} {addr entry : UInt32} {limit : Nat} {found : List Trace}

/-! ## Recorded traces -/

/-- A profile that only holds blocks that the machine ran, each with the address at which it went
on. -/
inductive Interpreted : Profile → Prop where
  | empty : Interpreted .empty
  | record {p : Profile} {limit : Nat} {s t : State} {trace : Trace} (h : Interpreted p)
      (step : Machine.step limit s = (.ok trace, t)) : Interpreted (p.record trace t.pc)

/-- What the interpreter records of a block keeps the profile one of a run. -/
theorem Interpreted.step {s : State} (h : Interpreted p)
    (hok : (Machine.step limit s).1 = .ok t) :
    Interpreted (p.record t (Machine.step limit s).2.pc) :=
  .record h (Prod.ext hok rfl)

/-- A word with its address is an instruction of a recorded trace. -/
def Seen (p : Profile) (insn : UInt32 × UInt32) : Prop :=
  ∃ entry trace, p.trace? entry = some trace ∧ insn ∈ (Block.ofTrace trace).code

/-- A block is replaced by the one that is recorded at its address last. -/
theorem trace?_record (p : Profile) (trace : Trace) (next addr : UInt32) :
    (p.record trace next).trace? addr = if addr = trace.entry then some trace else p.trace? addr := by
  simp only [trace?, record, Std.TreeMap.getElem?_insert, Std.LawfulEqOrd.compare_eq_iff_eq]
  by_cases h : addr = trace.entry
  · simp [h]
  · simp [h, Ne.symm h]

/-- What is seen after a block is recorded was seen before or is in the block. -/
theorem seen_record {trace : Trace} {next : UInt32} {i : UInt32 × UInt32}
    (h : (p.record trace next).Seen i) : i ∈ (Block.ofTrace trace).code ∨ p.Seen i := by
  obtain ⟨entry, found, hfound, hi⟩ := h
  rw [trace?_record] at hfound
  split at hfound
  · cases hfound
    exact .inl hi
  · exact .inr ⟨entry, found, hfound, hi⟩

/-- An empty profile has seen nothing. -/
theorem not_seen_empty (i : UInt32 × UInt32) : ¬ empty.Seen i := by
  rintro ⟨entry, found, hfound, -⟩
  simp [trace?, empty] at hfound

/-- Every trace is listed under its entry. -/
def Listed (p : Profile) : Prop := ∀ addr t, p.trace? addr = some t → t.entry = addr

/-- An empty profile lists its blocks. -/
theorem listed_empty : Listed empty := fun _ _ h => by simp [trace?, empty] at h

/-- A block is recorded at its own address. -/
theorem Listed.record (h : p.Listed) (trace : Trace) (next : UInt32) :
    (p.record trace next).Listed := by
  intro addr t ht
  rw [trace?_record] at ht
  split at ht
  · next heq =>
    cases ht
    exact heq.symm
  · exact h addr t ht

/-- Every trace is listed under its entry and has the shape of a block. -/
theorem Interpreted.trace_spec (h : Interpreted p) (ht : p.trace? addr = some t) :
    t.entry = addr ∧ (Block.ofTrace t).Shaped := by
  induction h with
  | empty => simp [trace?, Profile.empty] at ht
  | record _ step ih =>
    rw [trace?_record] at ht
    split at ht
    · next heq =>
      cases ht
      exact ⟨heq.symm, (Machine.trace_of_step step).2⟩
    · exact ih ht

/-- The profile of a run lists its blocks. -/
theorem Interpreted.listed (h : Interpreted p) : p.Listed := fun _ _ ht => (h.trace_spec ht).1

/-! ## Discovery -/

/-- What is found when the candidate address `addr` is gone through: a trace there is added unless it
was found before. -/
def lookUp (p : Profile) (addr : UInt32) (found : List Trace) : List Trace :=
  match p.trace? addr with
  | some t => if found.any (·.entry == addr) then found else found ++ [t]
  | none => found

/-- Discovery goes on until there are enough blocks or no candidates. -/
theorem extend_cons (p : Profile) (limit : Nat) (addr : UInt32) (rest : List UInt32)
    (found : List Trace) :
    p.extend limit (addr :: rest) found =
      if limit ≤ found.length then (found, true) else p.extend limit rest (p.lookUp addr found) := by
  cases ht : p.trace? addr with
  | none => simp only [extend, lookUp, ht]
  | some t =>
    simp only [extend, lookUp, ht]
    split
    · rfl
    · split <;> rfl

/-- The walk ends when every trace is visited. -/
theorem visit_of_none {fuel i : Nat} (hget : found[i]? = none) :
    p.visit limit fuel i found = found := by
  cases fuel with
  | zero => rfl
  | succ fuel => rw [visit, hget]

/-- A visit adds to what is found, and the walk goes on unless the bound is met. -/
theorem visit_of_some {fuel i : Nat} (hget : found[i]? = some t) :
    p.visit limit (fuel + 1) i found =
      if (p.extend limit (p.candidates t) found).2 then (p.extend limit (p.candidates t) found).1
      else p.visit limit fuel (i + 1) (p.extend limit (p.candidates t) found).1 := by
  rw [visit, hget]
  dsimp only
  split
  · next h => rw [h, if_pos rfl]
  · next h => rw [h, if_neg Bool.false_ne_true]

/-- Traces as discovery collects them: recorded ones with distinct entries, from `first` on. -/
structure Collected (p : Profile) (first : Trace) (found : List Trace) : Prop where
  head : found.head? = some first
  recorded : ∀ t ∈ found, p.trace? t.entry = some t
  entries : found.Pairwise fun t u => t.entry ≠ u.entry

/-- Discovery begins with the block at the entry. -/
theorem collected_first (hp : p.Listed) (ht : p.trace? entry = some t) : Collected p t [t] := by
  obtain rfl := hp entry t ht
  refine ⟨rfl, fun u hu => ?_, List.pairwise_singleton _ _⟩
  rw [List.mem_singleton.1 hu]
  exact ht

/-- A block that is not among those found may be added. -/
theorem Collected.push (h : Collected p t found) (hp : p.Listed) (hu : p.trace? addr = some u)
    (hnew : found.any (·.entry == addr) = false) : Collected p t (found ++ [u]) := by
  obtain rfl := hp addr u hu
  refine ⟨?_, fun v hv => ?_, List.pairwise_append.2 ⟨h.entries, List.pairwise_singleton _ _, ?_⟩⟩
  · rw [List.head?_append, h.head]
    rfl
  · rcases List.mem_append.1 hv with hv | hv
    · exact h.recorded v hv
    · rw [List.mem_singleton.1 hv]
      exact hu
  · intro v hv w hw
    rw [List.mem_singleton.1 hw]
    have := List.any_eq_false.1 hnew v hv
    simpa using this

/-- Looking an address up adds the block there, unless it was found before. -/
theorem Collected.lookUp (h : Collected p t found) (hp : p.Listed) (addr : UInt32) :
    Collected p t (p.lookUp addr found) := by
  unfold Profile.lookUp
  split
  · next u hu =>
    split
    · exact h
    · next hnew => exact h.push hp hu (Bool.eq_false_iff.2 hnew)
  · exact h

/-- The candidates of a block are added one after the other. -/
theorem Collected.extend (h : Collected p t found) (hp : p.Listed) (candidates : List UInt32) :
    Collected p t (p.extend limit candidates found).1 := by
  induction candidates generalizing found with
  | nil => exact h
  | cons addr rest ih =>
    rw [extend_cons]
    split
    · exact h
    · exact ih (h.lookUp hp addr)

/-- The search through the blocks found keeps them a collection. -/
theorem Collected.visit (h : Collected p t found) (hp : p.Listed) (fuel i : Nat) :
    Collected p t (p.visit limit fuel i found) := by
  induction fuel generalizing i found with
  | zero => exact h
  | succ fuel ih =>
    cases hget : found[i]? with
    | none => rwa [visit_of_none hget]
    | some u =>
      have hext : Collected p t (p.extend limit (p.candidates u) found).1 := h.extend hp _
      rw [visit_of_some hget]
      split
      · exact hext
      · exact ih hext (i + 1)

/-- The traces of a region: the one of its entry, and others that were recorded. -/
theorem discover_spec (hp : Interpreted p) (h : p.discover entry limit = some found) :
    ∃ first, p.trace? entry = some first ∧ Collected p first found := by
  obtain ⟨first, hfirst, rfl⟩ := Option.map_eq_some_iff.1 h
  exact ⟨first, hfirst, (collected_first hp.listed hfirst).visit hp.listed _ 0⟩

/-- Discovery fails if nothing is recorded at the entry, and only then. -/
theorem discover_eq_none_iff : p.discover entry limit = none ↔ p.trace? entry = none := by
  simp [discover]

/-! ## A recorded loop -/

/-- A machine at a loop that counts a register down. -/
def countdownState : State :=
  .initial ((Machine.Memory.zeroed 8 (by decide)).loadWords 0x20 [0x2508ffff, 0x1500fffe, 0]) 0x20

/-- The trace of one round: decrement, branch back if not zero, and a delay slot. -/
def countdownTrace : Trace := ⟨0x20, [0x2508ffff, 0x1500fffe, 0]⟩

/-- The profile after one round of the loop. -/
def countdown : Profile := empty.record countdownTrace (Machine.step 3 countdownState).2.pc

/-- The profile of the example comes from a run. -/
theorem interpreted_countdown : countdown.Interpreted := Interpreted.empty.step (by rfl)

/-- All instructions that it has seen are those of its block. -/
theorem seen_countdown {i : UInt32 × UInt32} (h : countdown.Seen i) :
    i ∈ (Block.ofTrace countdownTrace).code :=
  (seen_record h).resolve_right (not_seen_empty i)

/-- No instruction of the loop is at the address of the synthetic entry. -/
theorem unmarked_countdown (i : UInt32 × UInt32) (h : countdown.Seen i) :
    i.2 ≠ Region.entryMark := by
  have hcode : ((Block.ofTrace countdownTrace).code.all (·.2 != Region.entryMark)) = true := by decide
  simpa using List.all_eq_true.1 hcode i (seen_countdown h)

end Profile

end HotRegion
