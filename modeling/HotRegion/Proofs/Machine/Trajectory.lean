import HotRegion.Machine.Step

/-!
# Trajectories of single steps

`Reaches k s t` says that `k` steps of length one lead from `s` to `t`. This is the trajectory that
blocks of any length and the code of regions lead along.

## Key results

- `Reaches.trans`: one run of steps after the other
- `execute_clock`: an instruction neither reads nor changes the program counter and the count
- `State.Alike.reaches`: the count of instructions has no influence on a run
- `Reaches.fault_unique`: there is at most one fault that a run can end in
-/

namespace HotRegion.Machine

open Isa

variable {s t u : State} {k l : Nat} {fault : Fault}

/-- `k` successful steps of length one lead from `s` to `t`. -/
inductive Reaches : Nat → State → State → Prop where
  | refl (s : State) : Reaches 0 s s
  | head {k : Nat} {s t u : State} {trace : Trace} (h : step 1 s = (.ok trace, t))
      (rest : Reaches k t u) : Reaches (k + 1) s u

/-- A block that is walked is one on the way. -/
theorem Reaches.one {trace : Trace} (h : step 1 s = (.ok trace, t)) : Reaches 1 s t :=
  .head h (.refl t)

/-- Walking on from where the walk ended. -/
theorem Reaches.trans (h : Reaches k s t) (h' : Reaches l t u) : Reaches (k + l) s u := by
  induction h with
  | refl => simpa using h'
  | @head k _ _ _ _ hstep _ ih =>
    rw [Nat.add_right_comm]
    exact .head hstep (ih h')

/-- Two runs of equally many steps from one state end in one state. -/
theorem Reaches.unique (h : Reaches k s t) (h' : Reaches k s u) : t = u := by
  induction h with
  | refl =>
    cases h'
    rfl
  | head hstep _ ih =>
    cases h' with
    | head hstep' rest =>
      rw [hstep] at hstep'
      cases hstep'
      exact ih rest

/-- A run of steps goes through the states that shorter runs end in. -/
theorem Reaches.split (h : Reaches k s t) (hl : l ≤ k) : ∃ u, Reaches l s u ∧ Reaches (k - l) u t := by
  induction h generalizing l with
  | refl s =>
    obtain rfl : l = 0 := by omega
    exact ⟨s, .refl s, .refl s⟩
  | @head k s t u trace hstep rest ih =>
    cases l with
    | zero => exact ⟨s, .refl s, .head hstep rest⟩
    | succ l =>
      obtain ⟨v, hv, hrest⟩ := ih (l := l) (by omega)
      refine ⟨v, .head hstep hv, ?_⟩
      rwa [Nat.add_sub_add_right]

/-! ## Instructions and the clock -/

/-- The state with another program counter and instruction count. -/
def State.clock (s : State) (pc : UInt32) (icnt : UInt64) : State := { s with pc := pc, icnt := icnt }

@[simp] theorem State.clock_clock (s : State) (pc pc' : UInt32) (icnt icnt' : UInt64) :
    (s.clock pc icnt).clock pc' icnt' = s.clock pc' icnt' := rfl

/-- Setting the counters to what they are changes nothing. -/
theorem State.clock_self (s : State) : s.clock s.pc s.icnt = s := rfl

/-- Writing a register does not look at the counters. -/
theorem State.setReg_clock (s : State) (pc : UInt32) (icnt : UInt64) (r : Gpr) (v : UInt32) :
    (s.clock pc icnt).setReg r v = (s.setReg r v).clock pc icnt := by
  unfold State.setReg
  split <;> rfl

/-- Floating-point arithmetic does not look at the counters. -/
theorem State.fpAlu_clock (s : State) (pc : UInt32) (icnt : UInt64) (op : FpAluOp) (fmt : FpFormat)
    (fd fs ft : Fpr) :
    (s.clock pc icnt).fpAlu op fmt fd fs ft = (s.fpAlu op fmt fd fs ft).clock pc icnt := by
  cases fmt <;> rfl

/-- Operations on one floating-point register do not look at the counters. -/
theorem State.fpUnary_clock (s : State) (pc : UInt32) (icnt : UInt64) (op : FpUnaryOp)
    (fd fs : Fpr) : (s.clock pc icnt).fpUnary op fd fs = (s.fpUnary op fd fs).clock pc icnt := by
  cases op with
  | convert target source => cases target <;> rfl
  | toWord fmt | truncToWord fmt => rfl
  | _ fmt => cases fmt <;> rfl

/-- An instruction neither reads nor changes the program counter and the instruction count. -/
theorem execute_clock (s : State) (pc : UInt32) (icnt : UInt64) (addr : UInt32) (insn : Instr) :
    execute (s.clock pc icnt) addr insn = (execute s addr insn).map (·.clock pc icnt) := by
  cases insn with
  | shift | unary | loadUpper | load | moveFromFpu | moveFromFcr =>
    exact congrArg Except.ok (State.setReg_clock ..)
  | alu op rd rs rt =>
    simp only [execute]
    split
    · rw [if_pos (by assumption)]
      rfl
    · rw [if_neg (by assumption)]
      exact congrArg Except.ok (State.setReg_clock ..)
  | imm op rt rs value =>
    simp only [execute]
    split
    · rw [if_pos (by assumption)]
      rfl
    · rw [if_neg (by assumption)]
      exact congrArg Except.ok (State.setReg_clock ..)
  | hiLoMove move r =>
    cases move with
    | fromHi | fromLo => exact congrArg Except.ok (State.setReg_clock ..)
    | toHi | toLo => rfl
  | fpAlu => exact congrArg Except.ok (State.fpAlu_clock ..)
  | fpUnary => exact congrArg Except.ok (State.fpUnary_clock ..)
  | fpLoad fmt | fpStore fmt => cases fmt <;> rfl
  | trap cond rs rt =>
    simp only [execute]
    split
    · rw [if_pos (by assumption)]
      rfl
    · rw [if_neg (by assumption)]
      rfl
  | _ => rfl

/-- The clock after an instruction is the clock before it. -/
theorem clock_execute {addr : UInt32} {insn : Instr} (h : execute s addr insn = .ok t) :
    t.pc = s.pc ∧ t.icnt = s.icnt := by
  have hself := execute_clock s s.pc s.icnt addr insn
  rw [State.clock_self, h] at hself
  have heq : t = t.clock s.pc s.icnt := Except.ok.inj hself
  exact ⟨(congrArg State.pc heq :), (congrArg State.icnt heq :)⟩

/-! ## Single steps -/

/-- A step of length one at an instruction that does not transfer control. -/
theorem step_one_of_straight (h : (decode (s.mem.readWord s.pc)).hasDelaySlot = false)
    (hok : execute s s.pc (decode (s.mem.readWord s.pc)) = .ok t) :
    step 1 s = (.ok ⟨s.pc, [s.mem.readWord s.pc]⟩, t.retire.clock (s.pc + 4) t.retire.icnt) := by
  simp only [step, Nat.max_self, stepWords, h, hok]
  rfl

/-- A step of length one at a control transfer. -/
theorem step_one_of_transfer {words : List UInt32}
    (h : (decode (s.mem.readWord s.pc)).hasDelaySlot = true)
    (hok : stepTransfer s (s.mem.readWord s.pc) = (.ok words, t)) :
    step 1 s = (.ok ⟨s.pc, words⟩, t) := by
  simp only [step, Nat.max_self, stepWords, h, hok]
  rfl

/-! ## The count of instructions -/

/-- The state with a count that is further on. -/
def State.shift (d : UInt64) (s : State) : State := { s with icnt := s.icnt + d }

/-- A count that is not shifted stays. -/
theorem State.shift_zero (s : State) : s.shift 0 = s := by
  unfold shift
  rw [UInt64.add_zero]

/-- Counting an instruction goes with any shift of the count. -/
theorem State.retire_shift (s : State) (d : UInt64) : (s.shift d).retire = s.retire.shift d := by
  unfold shift retire
  rw [UInt64.add_assoc, UInt64.add_comm d, ← UInt64.add_assoc]

/-- Linking does not look at the count. -/
theorem State.link_shift (s : State) (d : UInt64) (addr : UInt32) (insn : Instr) :
    (s.shift d).link addr insn = (s.link addr insn).shift d := by
  have hset : ∀ r v, (s.shift d).setReg r v = (s.setReg r v).shift d := by
    intro r v
    unfold setReg
    split <;> rfl
  cases insn with
  | branchZeroLink | jumpLink | jumpLinkReg => exact hset _ _
  | _ => rfl

/-- An instruction runs alike whatever the count is. -/
theorem execute_shift (s : State) (d : UInt64) (addr : UInt32) (insn : Instr) :
    execute (s.shift d) addr insn = (execute s addr insn).map (·.shift d) := by
  have hclock := execute_clock s s.pc (s.icnt + d) addr insn
  cases hx : execute s addr insn with
  | error fault =>
    rw [hx] at hclock
    exact hclock
  | ok t =>
    obtain ⟨hpc, hicnt⟩ := clock_execute hx
    rw [hx] at hclock
    refine hclock.trans ?_
    change Except.ok (t.clock s.pc (s.icnt + d)) = .ok (t.shift d)
    rw [← hpc, ← hicnt]
    rfl

/-- The state between a control transfer at the program counter and its delay slot. -/
def State.inSlot (s : State) (word : UInt32) : State :=
  { (s.link s.pc (decode word)).retire with pc := s.pc + 4 }

/-- Where a control transfer at the program counter goes on. -/
def State.onward (s : State) (word : UInt32) : UInt32 :=
  if s.taken (decode word) then s.target s.pc (decode word) else s.pc + 8

/-- A transfer fetches its delay slot and runs it, unless that is a transfer itself or skipped. -/
theorem stepTransfer_eq (s : State) (word : UInt32) :
    stepTransfer s word =
      if (decode (s.mem.readWord (s.pc + 4))).hasDelaySlot then
        (.error (.unknown (s.pc + 4) (s.mem.readWord (s.pc + 4))), s.inSlot word)
      else if (decode word).isLikelyBranch && !s.taken (decode word) then
        (.ok [word, s.mem.readWord (s.pc + 4)], { s.inSlot word with pc := s.onward word })
      else
        match execute (s.inSlot word) (s.pc + 4) (decode (s.mem.readWord (s.pc + 4))) with
        | .error fault => (.error fault, s.inSlot word)
        | .ok s' =>
          (.ok [word, s.mem.readWord (s.pc + 4)], { s'.retire with pc := s.onward word }) := rfl

/-- A transfer does the same under any count. -/
theorem stepTransfer_shift (s : State) (d : UInt64) (word : UInt32) :
    stepTransfer (s.shift d) word =
      ((stepTransfer s word).1, (stepTransfer s word).2.shift d) := by
  -- Nothing of the step but the count depends on the count.
  have hslot : (s.shift d).inSlot word = (s.inSlot word).shift d := by
    unfold State.inSlot
    rw [State.link_shift, State.retire_shift]
    rfl
  have htaken : (s.shift d).taken (decode word) = s.taken (decode word) := by
    cases decode word <;> rfl
  have honward : (s.shift d).onward word = s.onward word := by
    unfold State.onward
    rw [htaken]
    rfl
  rw [stepTransfer_eq, stepTransfer_eq, hslot, htaken, honward]
  simp only [show (s.shift d).pc = s.pc from rfl, show (s.shift d).mem = s.mem from rfl,
    execute_shift]
  split
  · rfl
  split
  · rfl
  cases execute (s.inSlot word) (s.pc + 4) (decode (s.mem.readWord (s.pc + 4))) with
  | error fault => rfl
  | ok s' =>
    simp only [Except.map, State.retire_shift]
    rfl

/-- Walking a block does the same under any count. -/
theorem stepWords_shift (limit : Nat) (s : State) (d : UInt64) :
    stepWords limit (s.shift d) = ((stepWords limit s).1, (stepWords limit s).2.shift d) := by
  induction limit generalizing s with
  | zero => rfl
  | succ limit ih =>
    unfold stepWords
    simp only [show (s.shift d).pc = s.pc from rfl, show (s.shift d).mem = s.mem from rfl,
      execute_shift, stepTransfer_shift]
    split
    · rfl
    · cases execute s s.pc (decode (s.mem.readWord s.pc)) with
      | error fault => rfl
      | ok s' =>
        have hnext : ({ (s'.shift d).retire with pc := s.pc + 4 } : State) =
            ({ s'.retire with pc := s.pc + 4 } : State).shift d := by
          rw [State.retire_shift]
          rfl
        simp only [Except.map, hnext, ih]
        rcases stepWords limit { s'.retire with pc := s.pc + 4 } with ⟨fault | words, t⟩ <;> rfl

/-- A block runs alike whatever the count is. -/
theorem step_shift (limit : Nat) (s : State) (d : UInt64) :
    step limit (s.shift d) = ((step limit s).1, (step limit s).2.shift d) := by
  unfold step
  rw [stepWords_shift]
  rcases stepWords (max limit 1) s with ⟨fault | words, t⟩ <;> rfl

/-- The walk through blocks is the same under any count. -/
theorem Reaches.shift (h : Reaches k s t) (d : UInt64) : Reaches k (s.shift d) (t.shift d) := by
  induction h with
  | refl s => exact .refl _
  | head hstep _ ih => exact .head (by rw [step_shift, hstep]) ih

/-- The states are the same, except for the count of instructions where that does not matter. -/
structure State.Alike (counted : Bool) (s t : State) : Prop where
  state : s = { t with icnt := s.icnt }
  icnt : counted = true → s.icnt = t.icnt

namespace State.Alike

variable {counted counted' : Bool}

/-- A state is like itself. -/
theorem refl (counted : Bool) (s : State) : s.Alike counted s := ⟨rfl, fun _ => rfl⟩

/-- Being alike goes both ways. -/
theorem symm (h : s.Alike counted t) : t.Alike counted s :=
  ⟨by rw [h.state], fun hc => (h.icnt hc).symm⟩

/-- States that are like a third one are alike. -/
theorem trans (h : s.Alike counted t) (h' : t.Alike counted u) : s.Alike counted u :=
  ⟨by rw [h.state, h'.state], fun hc => (h.icnt hc).trans (h'.icnt hc)⟩

/-- States that are alike with their counts are alike without them. -/
theorem mono (h : s.Alike counted t) (hc : counted' = true → counted = true) :
    s.Alike counted' t := ⟨h.state, fun hc' => h.icnt (hc hc')⟩

/-- States that are alike differ by a shift of the count. -/
theorem exists_shift (h : s.Alike counted t) : ∃ d, t = s.shift d ∧ (counted = true → d = 0) := by
  refine ⟨t.icnt - s.icnt, ?_, fun hc => ?_⟩
  · rw [h.state, shift, UInt64.add_comm, UInt64.sub_add_cancel]
  · rw [h.icnt hc, UInt64.sub_self]

/-- A state with another count is alike where counts do not matter. -/
theorem of_shift {d : UInt64} (h : counted = true → d = 0) : s.Alike counted (s.shift d) :=
  ⟨rfl, fun hc => by rw [h hc, shift_zero]⟩

/-- A block does alike from states that are alike. -/
theorem step {limit : Nat} {r : Except Fault Trace} (h : s.Alike counted t)
    (hstep : Machine.step limit s = (r, u)) :
    ∃ v, Machine.step limit t = (r, v) ∧ u.Alike counted v := by
  obtain ⟨d, rfl, hd⟩ := h.exists_shift
  exact ⟨u.shift d, by rw [step_shift, hstep], of_shift hd⟩

/-- States that are alike reach states that are alike. -/
theorem reaches (h : s.Alike counted t) (hreaches : Reaches k s u) :
    ∃ v, Reaches k t v ∧ u.Alike counted v := by
  obtain ⟨d, rfl, hd⟩ := h.exists_shift
  exact ⟨u.shift d, hreaches.shift d, of_shift hd⟩

end State.Alike

/-- A run of steps ends at most once in a fault. -/
theorem Reaches.fault_unique {fault' : Fault} {t' u' : State} (h : Reaches k s u)
    (hfault : step 1 u = (.error fault, t)) (h' : Reaches l s u')
    (hfault' : step 1 u' = (.error fault', t')) : fault = fault' ∧ t = t' := by
  have hle : ∀ {k l : Nat} {u u' t : State} {fault : Fault}, Reaches k s u →
      step 1 u = (.error fault, t) → Reaches l s u' → l ≤ k := by
    intro k l u u' t fault h hfault h'
    refine Nat.le_of_not_lt fun hlt => ?_
    obtain ⟨v, hv, hrest⟩ := h'.split (Nat.le_of_lt hlt)
    obtain rfl := hv.unique h
    cases hkl : l - k with
    | zero => omega
    | succ n =>
      rw [hkl] at hrest
      cases hrest with
      | head hstep _ =>
        rw [hfault] at hstep
        cases hstep
  obtain rfl := Nat.le_antisymm (hle h' hfault' h) (hle h hfault h')
  obtain rfl := h.unique h'
  rw [hfault] at hfault'
  cases hfault'
  exact ⟨rfl, rfl⟩

end HotRegion.Machine
