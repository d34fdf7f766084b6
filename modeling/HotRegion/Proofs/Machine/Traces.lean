import HotRegion.Proofs.Machine.BlockRun

/-!
# What the trace of a block says

The trace of a block lists its words from the program counter on, each as memory held it when it was
fetched. Its transfer, if it has one, stands before the last word, and the length tells how many
instructions have run: all of them, or all but the delay slot that an untaken likely branch skips.

## Key results

- `stepWords_position`: only the second to last word of a block transfers control
- `Trace.transfer_eq_some_iff`, `Trace.endsInLikely_iff`: the transfer of a trace in its words
- `onward_cases`: where a transfer goes on
- `step_describes`: a trace describes the run that made it
-/

namespace HotRegion.Machine

open Isa

variable {s t u : State} {words before last : List UInt32} {w d word : UInt32} {limit i : Nat}
  {trace : Trace}

/-! ## Words of a block -/

/-- Only the second to last word of a dynamic block may transfer control. -/
theorem stepWords_position (h : stepWords limit s = (.ok words, t)) (hw : words[i]? = some w)
    (hflow : (decode w).hasDelaySlot = true) : i + 2 = words.length := by
  obtain ⟨hruns, -⟩ | ⟨before, last, u, rfl, -, hruns, -, hlast⟩ := course_of_ok h
  · rw [hruns.flow (List.mem_of_getElem? hw)] at hflow
    cases hflow
  · obtain ⟨rfl, hslot, -⟩ := stepTransfer_eq_ok hlast
    obtain hi | hi | hi : i < before.length ∨ i = before.length ∨ before.length < i := by omega
    · -- Before the transfer everything is straight code.
      rw [List.getElem?_append_left hi] at hw
      rw [hruns.flow (List.mem_of_getElem? hw)] at hflow
      cases hflow
    · rw [List.length_append, hi]
      rfl
    · -- After the transfer there is the delay slot alone.
      rw [List.getElem?_append_right (Nat.le_of_lt hi)] at hw
      obtain ⟨j, hj⟩ : ∃ j, i - before.length = j + 1 := ⟨i - before.length - 1, by omega⟩
      rw [hj] at hw
      cases j with
      | zero =>
        rw [← Option.some.inj hw, hslot] at hflow
        cases hflow
      | succ j => simp at hw

theorem stepWords_ne_nil (h : stepWords (limit + 1) s = (.ok words, t)) : words ≠ [] := by
  obtain ⟨-, hlength⟩ | ⟨before, last, u, rfl, -, -, -, hlast⟩ := course_of_ok h
  · exact List.ne_nil_of_length_eq_add_one hlength
  · obtain ⟨rfl, -⟩ := stepTransfer_eq_ok hlast
    simp

/-! ## The transfer of a trace -/

namespace Trace

theorem penultimate_eq_some_iff {addr : UInt32} {insn : Instr} :
    trace.penultimate = some (addr, insn) ↔
      ∃ before w d, trace.words = before ++ [w, d] ∧ addr = wordAddr trace.entry before.length ∧
        insn = decode w := by
  unfold penultimate
  constructor
  · intro h
    split at h
    · next d w rest hreverse =>
      cases h
      refine ⟨rest.reverse, w, d, ?_, by rw [List.length_reverse], rfl⟩
      rw [← List.reverse_reverse trace.words, hreverse]
      simp
    · cases h
  · rintro ⟨before, w, d, hwords, rfl, rfl⟩
    rw [hwords]
    simp

/-- The transfer of a trace is its second to last word. -/
theorem transfer_eq_some_iff {addr : UInt32} {control : Control} :
    trace.transfer = some (addr, control) ↔
      ∃ before w d, trace.words = before ++ [w, d] ∧ addr = wordAddr trace.entry before.length ∧
        control = (decode w).control addr ∧ (decode w).hasDelaySlot = true := by
  unfold transfer
  cases hlast : trace.penultimate with
  | none =>
    refine ⟨nofun, fun ⟨before, w, d, hwords, haddr, _⟩ => ?_⟩
    rw [penultimate_eq_some_iff.2 ⟨before, w, d, hwords, haddr, rfl⟩] at hlast
    cases hlast
  | some p =>
    obtain ⟨addr', insn⟩ := p
    obtain ⟨before, w, d, hwords, rfl, rfl⟩ := penultimate_eq_some_iff.1 hlast
    simp only [Instr.isTransfer_control]
    constructor
    · intro h
      split at h
      · next hflow =>
        cases h
        exact ⟨before, w, d, hwords, rfl, rfl, hflow⟩
      · cases h
    -- The last two words of the trace are the only ones that can be the transfer.
    · rintro ⟨before', w', d', hwords', rfl, rfl, hflow⟩
      obtain ⟨rfl, hpair⟩ := List.append_inj' (hwords.symm.trans hwords') rfl
      obtain ⟨rfl, -⟩ := List.cons.inj hpair
      rw [if_pos hflow]

/-- A trace has no transfer if its second to last word is none. -/
theorem transfer_eq_none_iff :
    trace.transfer = none ↔
      ∀ before w d, trace.words = before ++ [w, d] → (decode w).hasDelaySlot = false := by
  constructor
  · intro h before w d hwords
    refine Bool.eq_false_iff.2 fun hflow => ?_
    rw [transfer_eq_some_iff.2 ⟨before, w, d, hwords, rfl, rfl, hflow⟩] at h
    cases h
  · intro h
    cases htransfer : trace.transfer with
    | none => rfl
    | some p =>
      obtain ⟨before, w, d, hwords, -, -, hflow⟩ := transfer_eq_some_iff.1 htransfer
      rw [h before w d hwords] at hflow
      cases hflow

/-- A trace ends in a likely branch if its second to last word is one. -/
theorem endsInLikely_iff :
    trace.endsInLikely = true ↔ ∃ before w d, trace.words = before ++ [w, d] ∧
      (decode w).isLikelyBranch = true := by
  unfold endsInLikely
  cases hlast : trace.penultimate with
  | none =>
    refine ⟨nofun, fun ⟨before, w, d, hwords, _⟩ => ?_⟩
    rw [penultimate_eq_some_iff.2 ⟨before, w, d, hwords, rfl, rfl⟩] at hlast
    cases hlast
  | some p =>
    obtain ⟨addr, insn⟩ := p
    obtain ⟨before, w, d, hwords, -, rfl⟩ := penultimate_eq_some_iff.1 hlast
    refine ⟨fun h => ⟨before, w, d, hwords, h⟩, fun ⟨before', w', d', hwords', h⟩ => ?_⟩
    obtain ⟨-, hpair⟩ := List.append_inj' (hwords.symm.trans hwords') rfl
    obtain ⟨rfl, -⟩ := List.cons.inj hpair
    exact h

end Trace

/-! ## Where a transfer goes on -/

/-- Control goes on at a static target of the transfer, or at the value that the source register of
a register jump has before the link is written and the delay slot runs. -/
theorem onward_cases (u : State) (hflow : (decode word).hasDelaySlot = true) :
    u.onward word ∈ ((decode word).control u.pc).targets ∨
      ∃ rs, (decode word = .jumpReg rs ∨ ∃ rd, decode word = .jumpLinkReg rd rs) ∧
        u.onward word = u.reg rs := by
  unfold State.onward
  cases hinsn : decode word <;> rw [hinsn] at hflow <;> try cases hflow
  case jumpReg rs => exact .inr ⟨rs, .inl rfl, rfl⟩
  case jumpLinkReg rd rs => exact .inr ⟨rs, .inr ⟨rd, rfl⟩, rfl⟩
  case jump | jumpLink => exact .inl (List.mem_singleton.2 rfl)
  all_goals
    refine .inl ?_
    split
    · exact List.mem_cons_self
    · exact List.mem_cons_of_mem _ List.mem_cons_self

/-! ## Blocks and their traces -/

/-- The machine is in state `u` when it fetches the word at position `i`: the words before it have
run. A delay slot is fetched together with its transfer. -/
def Trace.FetchedIn (trace : Trace) (s u : State) (i : Nat) : Prop :=
  Runs (trace.words.take i) s u ∨
    trace.transfer ≠ none ∧ i + 1 = trace.length ∧ Runs (trace.words.take (i - 1)) s u

/-- A block that started at `s` stood at its transfer `w` in state `u` and is left in state `t`, with
`length` words in its trace of which `d` is the delay slot. -/
structure Departs (s u t : State) (length : Nat) (w d : UInt32) : Prop where
  pc : t.pc ∈ ((decode w).control u.pc).targets ∨
    ∃ rs, (decode w = .jumpReg rs ∨ ∃ rd, decode w = .jumpLinkReg rd rs) ∧ t.pc = u.reg rs
  /-- A likely branch that is not taken has no effect but to move on, and its delay slot has none. -/
  skips : (decode w).isLikelyBranch = true → u.taken (decode w) = false →
    t = u.clock (u.pc + 8) (u.icnt + 1) ∧ t.icnt = s.icnt + UInt64.ofNat (length - 1)
  /-- Otherwise the delay slot runs, after the link is written. -/
  runs : ¬((decode w).isLikelyBranch = true ∧ u.taken (decode w) = false) →
    (∃ v, execute (u.inSlot w) (u.pc + 4) (decode d) = .ok v ∧ t = v.clock t.pc t.icnt) ∧
      t.icnt = s.icnt + UInt64.ofNat length

/-- What a trace says of the run of a block, with a limit of `limit` instructions, from `s` to `t`. -/
structure Trace.Describes (trace : Trace) (limit : Nat) (s t : State) : Prop where
  entry : trace.entry = s.pc
  length_pos : 1 ≤ trace.length
  length_le : trace.length ≤ limit + 1
  /-- Each word is what memory held, four times its position past the program counter, when it was
  fetched. -/
  fetched : ∀ i w, trace.words[i]? = some w →
    ∃ u, trace.FetchedIn s u i ∧ u.mem.readWord (wordAddr s.pc i) = w
  position : ∀ i w, trace.words[i]? = some w →
    ((decode w).control (wordAddr s.pc i)).isTransfer = true → i + 2 = trace.length
  endsInLikely : trace.endsInLikely = true ↔
    ∃ before w d taken notTaken, trace.words = before ++ [w, d] ∧
      (decode w).control (wordAddr s.pc before.length) = .branch taken notTaken true
  transfer_eq_none : trace.transfer = none ↔ ∀ before w d, trace.words = before ++ [w, d] →
    ((decode w).control (wordAddr s.pc before.length)).isTransfer = false
  /-- A block without a transfer runs to its limit. -/
  limited : trace.transfer = none → trace.length = limit ∧ Runs trace.words s t ∧
    t.pc = wordAddr s.pc limit ∧ t.icnt = s.icnt + UInt64.ofNat limit
  transferred : ∀ addr control, trace.transfer = some (addr, control) →
    ∃ before w d u, trace.words = before ++ [w, d] ∧ Runs before s u ∧ u.pc = addr ∧
      control = (decode w).control addr ∧ Departs s u t trace.length w d

/-- A transfer at the end of straight code is left as it should be. -/
private theorem departs_of_stepTransfer (hruns : Runs before s u)
    (hflow : (decode w).hasDelaySlot = true) (h : stepTransfer u w = (.ok [w, d], t)) :
    Departs s u t (before.length + 2) w d := by
  obtain ⟨hwords, -, hdeparts⟩ := stepTransfer_eq_ok h
  obtain rfl : d = u.mem.readWord (u.pc + 4) := List.head_eq_of_cons_eq (List.tail_eq_of_cons_eq hwords)
  -- What the delay slot does changes neither the way nor the count before it.
  have hpc : t.pc = u.onward w := by
    obtain ⟨-, rfl⟩ | ⟨-, v, -, rfl⟩ := hdeparts <;> rfl
  have hcount : ∀ n : Nat, u.icnt + UInt64.ofNat n = s.icnt + UInt64.ofNat (before.length + n) :=
    fun n => by rw [hruns.icnt, UInt64.add_assoc, UInt64.ofNat_add]
  refine ⟨?_, fun hlikely htaken => ?_, fun hruns => ?_⟩
  · rw [hpc]
    exact onward_cases u hflow
  · obtain ⟨-, rfl⟩ | ⟨hnot, -⟩ := hdeparts
    · -- A likely branch links nothing, so that only the clock has moved.
      have ht : ({ u.inSlot w with pc := u.onward w } : State) = u.clock (u.pc + 8) (u.icnt + 1) := by
        unfold State.inSlot State.onward
        rw [link_of_likely hlikely, htaken]
        rfl
      exact ⟨ht, (congrArg State.icnt ht).trans (hcount 1)⟩
    · simp [hlikely, htaken] at hnot
  · obtain ⟨hskips, -⟩ | ⟨-, v, hv, rfl⟩ := hdeparts
    · exact absurd (by simpa using hskips) hruns
    · refine ⟨⟨v, hv, rfl⟩, ?_⟩
      have hicnt : v.icnt + 1 = u.icnt + 2 := by
        rw [(clock_execute hv).2, icnt_inSlot, UInt64.add_assoc]
        rfl
      exact hicnt.trans (hcount 2)

/-- Straight code has no transfer. -/
private theorem transfer_eq_none_of_runs (hruns : Runs trace.words s t) : trace.transfer = none := by
  refine Trace.transfer_eq_none_iff.2 fun before w d hwords => hruns.flow ?_
  rw [hwords]
  simp

/-- The words of a block are what memory held when they were fetched. -/
private theorem fetchedIn_of_step (h : stepWords limit s = (.ok trace.words, t))
    (hw : trace.words[i]? = some w) :
    ∃ u, trace.FetchedIn s u i ∧ u.mem.readWord (wordAddr s.pc i) = w := by
  obtain ⟨hruns, -⟩ | ⟨before, last, u, hwords, -, hruns, hflow, hlast⟩ := course_of_ok h
  · obtain ⟨u, hu, hread⟩ := hruns.fetched hw
    exact ⟨u, .inl hu, hread⟩
  · obtain ⟨rfl, -⟩ := stepTransfer_eq_ok hlast
    have htransfer : trace.transfer ≠ none := fun hnone => by
      rw [Trace.transfer_eq_none_iff.1 hnone _ _ _ hwords] at hflow
      cases hflow
    have htake : trace.words.take before.length = before := by
      rw [hwords, List.take_left]
    obtain hi | ⟨j, rfl⟩ : i < before.length ∨ ∃ j, i = before.length + j :=
      (Nat.lt_or_ge i before.length).imp_right Nat.exists_eq_add_of_le
    · -- A word before the transfer is fetched when the words before it have run.
      have hbefore : before[i]? = some w := by rwa [hwords, List.getElem?_append_left hi] at hw
      obtain ⟨u, hu, hread⟩ := hruns.fetched hbefore
      refine ⟨u, .inl ?_, hread⟩
      rwa [hwords, List.take_append_of_le_length (Nat.le_of_lt hi)]
    · rw [hwords, List.getElem?_append_right (by omega), Nat.add_sub_cancel_left] at hw
      rcases j with _ | _ | j
      · refine ⟨u, .inl (by rwa [Nat.add_zero, htake]), ?_⟩
        rw [Nat.add_zero, ← hruns.pc]
        exact Option.some.inj hw
      · -- The delay slot is fetched before the transfer has run.
        refine ⟨u, .inr ⟨htransfer, ?_, by rwa [Nat.add_sub_cancel, htake]⟩, ?_⟩
        · rw [Trace.length, hwords, List.length_append]
          rfl
        · rw [wordAddr_succ, ← hruns.pc]
          exact Option.some.inj hw
      · cases hw

/-- The trace of a block that does not fault describes the run of the block. -/
theorem step_describes (hlimit : 1 ≤ limit) (h : step limit s = (.ok trace, t)) :
    trace.Describes limit s t := by
  obtain ⟨hentry, h⟩ := words_of_step_ok h
  rw [Nat.max_eq_left hlimit] at h
  -- The words of a step are a run, and its last one is a transfer if there is a delay slot.
  obtain ⟨hlength_pos, hlength_le⟩ : 1 ≤ trace.length ∧ trace.length ≤ limit + 1 := by
    unfold Trace.length
    obtain ⟨-, hlength⟩ | ⟨before, last, u, hwords, hbefore, -, -, hlast⟩ := course_of_ok h
    · omega
    · obtain ⟨rfl, -⟩ := stepTransfer_eq_ok hlast
      rw [hwords, List.length_append]
      exact ⟨by simp, Nat.add_le_add_right hbefore 1⟩
  refine {
    entry := hentry
    length_pos := hlength_pos
    length_le := hlength_le
    fetched := fun i w hw => fetchedIn_of_step h hw
    position := fun i w hw hflow => ?_
    endsInLikely := ?_
    transfer_eq_none := ?_
    limited := fun hnone => ?_
    transferred := fun addr control htransfer => ?_ }
  · rw [Instr.isTransfer_control] at hflow
    exact stepWords_position h hw hflow
  · rw [Trace.endsInLikely_iff]
    constructor
    · rintro ⟨before, w, d, hwords, hlikely⟩
      obtain ⟨taken, notTaken, hcontrol⟩ :=
        (Instr.isLikelyBranch_iff _ (wordAddr s.pc before.length)).1 hlikely
      exact ⟨before, w, d, taken, notTaken, hwords, hcontrol⟩
    · rintro ⟨before, w, d, taken, notTaken, hwords, hcontrol⟩
      exact ⟨before, w, d, hwords, (Instr.isLikelyBranch_iff _ _).2 ⟨taken, notTaken, hcontrol⟩⟩
  · simp only [Trace.transfer_eq_none_iff, Instr.isTransfer_control]
  · obtain ⟨hruns, hlength⟩ | ⟨before, last, u, hwords, -, -, hflow, hlast⟩ := course_of_ok h
    · exact ⟨hlength, hruns, hlength ▸ hruns.pc, hlength ▸ hruns.icnt⟩
    · obtain ⟨rfl, -⟩ := stepTransfer_eq_ok hlast
      rw [Trace.transfer_eq_none_iff.1 hnone _ _ _ hwords] at hflow
      cases hflow
  · obtain ⟨hruns, -⟩ | ⟨before, last, u, hwords, -, hruns, hflow, hlast⟩ := course_of_ok h
    · rw [transfer_eq_none_of_runs hruns] at htransfer
      cases htransfer
    · obtain ⟨rfl, -⟩ := stepTransfer_eq_ok hlast
      rw [Trace.transfer_eq_some_iff.2 ⟨before, _, _, hwords, rfl, rfl, hflow⟩] at htransfer
      cases htransfer
      rw [hentry, ← hruns.pc]
      refine ⟨before, _, _, u, hwords, hruns, rfl, rfl, ?_⟩
      rw [Trace.length, hwords, List.length_append]
      exact departs_of_stepTransfer hruns hflow hlast

/-- A machine whose last words of memory are `addiu $8, $8, 5` and `beql $8, $0, 0x10`; the delay slot
of the branch is the first word of memory. -/
def wrapping : State :=
  .initial ((Memory.zeroed 7 (by decide)).loadWords 0xfffffff8 [0x25080005, 0x51000004, 0x25080005])
    0xfffffff8

/-- The branch is not taken, so that the trace has a word more than have run. -/
theorem step_describes_wrapping :
    1 ≤ 2 ∧ step 2 wrapping =
      (.ok ⟨0xfffffff8, [0x25080005, 0x51000004, 0x25080005]⟩, (step 2 wrapping).2) ∧
    (step 2 wrapping).2.icnt = 2 ∧
    Trace.Describes ⟨0xfffffff8, [0x25080005, 0x51000004, 0x25080005]⟩ 2 wrapping
      (step 2 wrapping).2 := by
  have hok : (step 2 wrapping).1 = .ok ⟨0xfffffff8, [0x25080005, 0x51000004, 0x25080005]⟩ := by rfl
  exact ⟨by decide, Prod.ext hok rfl, by rfl, step_describes (by decide) (Prod.ext hok rfl)⟩

end HotRegion.Machine
