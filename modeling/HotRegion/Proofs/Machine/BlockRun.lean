import HotRegion.Proofs.Machine.Trajectory

/-!
# The course of a dynamic block

A dynamic block runs instructions that transfer no control, each fetched when the machine gets to
it. Then it ends: at its limit, with the fault of an instruction, or with a control transfer and its
delay slot. What a block does in any of these cases is read off this course, also where it has
stored over its own words.

## Key results

- `stepTransfer_eq_ok`, `stepTransfer_eq_error`: what a control transfer can do
- `course_of_stepWords`: every block runs straight code and then ends
- `Runs.pc`, `Runs.icnt`: the clock along straight code
- `Runs.fetched`: when each word of straight code is fetched, and from where
-/

namespace HotRegion.Machine

open Isa

variable {s s' t u : State} {words words' : List UInt32} {w word : UInt32} {fault : Fault}
  {limit left i : Nat} {r : Except Fault (List UInt32)}

/-! ## Transfers -/

/-- Whether a branch is taken does not depend on the counters. -/
theorem taken_clock (g : State) (pc : UInt32) (icnt : UInt64) (insn : Instr) :
    (g.clock pc icnt).taken insn = g.taken insn := by
  cases insn <;> rfl

/-- The target of a transfer does not depend on the counters. -/
theorem target_clock (g : State) (pc : UInt32) (icnt : UInt64) (addr : UInt32) (insn : Instr) :
    (g.clock pc icnt).target addr insn = g.target addr insn := by
  cases insn <;> rfl

/-- A link does not depend on the counters. -/
theorem link_clock (g : State) (pc : UInt32) (icnt : UInt64) (addr : UInt32) (insn : Instr) :
    (g.clock pc icnt).link addr insn = (g.link addr insn).clock pc icnt := by
  cases insn with
  | branchZeroLink | jumpLink | jumpLinkReg => exact State.setReg_clock ..
  | _ => rfl

/-- A likely branch links nothing. -/
theorem link_of_likely {insn : Instr} (h : insn.isLikelyBranch = true) (g : State) (addr : UInt32) :
    g.link addr insn = g := by
  cases insn <;> first | rfl | cases h

/-- A link leaves memory alone. -/
theorem mem_link (g : State) (addr : UInt32) (insn : Instr) : (g.link addr insn).mem = g.mem := by
  have hset : ∀ r v, (g.setReg r v).mem = g.mem := fun r v => by
    unfold State.setReg
    split <;> rfl
  cases insn with
  | branchZeroLink | jumpLink | jumpLinkReg => exact hset _ _
  | _ => rfl

/-- A link leaves the counters alone. -/
theorem clock_link (g : State) (addr : UInt32) (insn : Instr) :
    (g.link addr insn).pc = g.pc ∧ (g.link addr insn).icnt = g.icnt := by
  have hset : ∀ r v, (g.setReg r v).pc = g.pc ∧ (g.setReg r v).icnt = g.icnt := fun r v => by
    unfold State.setReg
    split <;> exact ⟨rfl, rfl⟩
  cases insn with
  | branchZeroLink | jumpLink | jumpLinkReg => exact hset _ _
  | _ => exact ⟨rfl, rfl⟩

/-- Coming to a delay slot leaves memory alone. -/
theorem mem_inSlot (s : State) (word : UInt32) : (s.inSlot word).mem = s.mem :=
  mem_link s s.pc (decode word)

/-- The transfer before a delay slot is counted. -/
theorem icnt_inSlot (s : State) (word : UInt32) : (s.inSlot word).icnt = s.icnt + 1 :=
  congrArg (· + 1) (clock_link s s.pc (decode word)).2

/-- A control transfer that does not fault, and its delay slot, which is no transfer. -/
theorem stepTransfer_eq_ok (h : stepTransfer s word = (.ok words, t)) :
    words = [word, s.mem.readWord (s.pc + 4)] ∧
      (decode (s.mem.readWord (s.pc + 4))).hasDelaySlot = false ∧
      (((decode word).isLikelyBranch && !s.taken (decode word)) = true ∧
          t = { s.inSlot word with pc := s.onward word } ∨
        ((decode word).isLikelyBranch && !s.taken (decode word)) = false ∧
          ∃ s', execute (s.inSlot word) (s.pc + 4) (decode (s.mem.readWord (s.pc + 4))) = .ok s' ∧
            t = { s'.retire with pc := s.onward word }) := by
  rw [stepTransfer_eq] at h
  split at h
  · cases h
  next hslot =>
  split at h
  · next hskips =>
    cases h
    exact ⟨rfl, by simpa using hslot, .inl ⟨hskips, rfl⟩⟩
  · next hruns =>
    cases hx : execute (s.inSlot word) (s.pc + 4) (decode (s.mem.readWord (s.pc + 4))) with
    | error fault =>
      rw [hx] at h
      cases h
    | ok s' =>
      rw [hx] at h
      cases h
      exact ⟨rfl, by simpa using hslot, .inr ⟨by simpa using hruns, s', rfl, rfl⟩⟩

/-- A control transfer faults in its delay slot: that is a transfer, or an instruction that faults. -/
theorem stepTransfer_eq_error (h : stepTransfer s word = (.error fault, t)) :
    t = s.inSlot word ∧
      ((decode (t.mem.readWord t.pc)).hasDelaySlot = true ∧
          fault = .unknown t.pc (t.mem.readWord t.pc) ∨
        (decode (t.mem.readWord t.pc)).hasDelaySlot = false ∧
          execute t t.pc (decode (t.mem.readWord t.pc)) = .error fault) := by
  -- The transfer does not change memory, so that the delay slot is still the same word after it.
  rw [stepTransfer_eq, ← mem_inSlot s word] at h
  split at h
  · next hslot =>
    cases h
    exact ⟨rfl, .inl ⟨hslot, rfl⟩⟩
  next hslot =>
  split at h
  · cases h
  · split at h
    · next hfault =>
      cases h
      exact ⟨rfl, .inr ⟨Bool.eq_false_iff.2 hslot, hfault⟩⟩
    · cases h

/-! ## The first instruction of a block -/

/-- A block starts with a control transfer, with an instruction that faults, or with one that does
not and more of the block after it. -/
theorem stepWords_succ_cases (h : stepWords (limit + 1) s = (r, t)) :
    (decode (s.mem.readWord s.pc)).hasDelaySlot = true ∧
        stepTransfer s (s.mem.readWord s.pc) = (r, t) ∨
      (decode (s.mem.readWord s.pc)).hasDelaySlot = false ∧
        ((∃ fault, execute s s.pc (decode (s.mem.readWord s.pc)) = .error fault ∧
            r = .error fault ∧ t = s) ∨
          ∃ s' rest, execute s s.pc (decode (s.mem.readWord s.pc)) = .ok s' ∧
            stepWords limit { s'.retire with pc := s.pc + 4 } = (rest, t) ∧
            r = rest.map (s.mem.readWord s.pc :: ·)) := by
  unfold stepWords at h
  dsimp only at h
  split at h
  · next hflow => exact .inl ⟨hflow, h⟩
  next hflow =>
  refine .inr ⟨by simpa using hflow, ?_⟩
  split at h
  · next fault hrun =>
    cases h
    exact .inl ⟨fault, hrun, rfl, rfl⟩
  · next s' hrun => split at h <;> cases h <;> exact .inr ⟨s', _, hrun, by assumption, rfl⟩

/-- Instructions that do not fault: a control transfer, or one instruction and more of them. -/
theorem stepWords_succ_eq_ok (h : stepWords (limit + 1) s = (.ok words, t)) :
    (decode (s.mem.readWord s.pc)).hasDelaySlot = true ∧
        stepTransfer s (s.mem.readWord s.pc) = (.ok words, t) ∨
      (decode (s.mem.readWord s.pc)).hasDelaySlot = false ∧
        ∃ s' rest, execute s s.pc (decode (s.mem.readWord s.pc)) = .ok s' ∧
          stepWords limit { s'.retire with pc := s.pc + 4 } = (.ok rest, t) ∧
          words = s.mem.readWord s.pc :: rest := by
  obtain htransfer | ⟨hflow, ⟨_, _, hfault, _⟩ | ⟨s', rest, hrun, hrest, hwords⟩⟩ :=
    stepWords_succ_cases h
  · exact .inl htransfer
  · cases hfault
  · cases rest with
    | error fault => cases hwords
    | ok rest => exact .inr ⟨hflow, s', rest, hrun, hrest, Except.ok.inj hwords⟩

/-! ## Straight code -/

/-- The machine runs words that transfer no control, one after the other: it fetches each at the
program counter when it gets there, and goes on at the next address. -/
inductive Runs : List UInt32 → State → State → Prop where
  | nil (s : State) : Runs [] s s
  | cons {s s' t : State} {words : List UInt32}
      (flow : (decode (s.mem.readWord s.pc)).hasDelaySlot = false)
      (run : execute s s.pc (decode (s.mem.readWord s.pc)) = .ok s')
      (rest : Runs words { s'.retire with pc := s.pc + 4 } t) :
      Runs (s.mem.readWord s.pc :: words) s t

namespace Runs

/-- Instructions in line are no transfers. -/
theorem flow (h : Runs words s t) (hw : w ∈ words) : (decode w).hasDelaySlot = false := by
  induction h with
  | nil => cases hw
  | cons flow _ _ ih =>
    obtain rfl | hw := List.mem_cons.1 hw
    · exact flow
    · exact ih hw

/-- Each word moves the program counter on by one word. -/
theorem pc (h : Runs words s t) : t.pc = wordAddr s.pc words.length := by
  induction h with
  | nil s => exact (wordAddr_zero s.pc).symm
  | cons _ _ _ ih =>
    rw [ih, List.length_cons, Nat.add_comm, wordAddr_add, wordAddr_succ, wordAddr_zero]

/-- Each word is counted once. -/
theorem icnt (h : Runs words s t) : t.icnt = s.icnt + UInt64.ofNat words.length := by
  induction h with
  | nil s => exact (UInt64.add_zero s.icnt).symm
  | @cons s s' _ words _ run _ ih =>
    -- The instruction itself does not touch the count.
    have hstep : ({ s'.retire with pc := s.pc + 4 } : State).icnt = s.icnt + 1 :=
      congrArg (· + 1) (clock_execute run).2
    rw [ih, hstep, List.length_cons, UInt64.ofNat_add, UInt64.add_assoc,
      UInt64.add_comm (UInt64.ofNat words.length)]
    rfl

/-- A run goes through the states that its first words lead to. -/
theorem split (h : Runs (words ++ words') s t) : ∃ u, Runs words s u ∧ Runs words' u t := by
  induction words generalizing s with
  | nil => exact ⟨s, .nil s, h⟩
  | cons w words ih =>
    obtain _ | ⟨flow, run, rest⟩ := h
    obtain ⟨u, hfirst, hrest⟩ := ih rest
    exact ⟨u, .cons flow run hfirst, hrest⟩

/-- Each word is what memory holds at its address when the words before it have run. -/
theorem fetched (h : Runs words s t) (hw : words[i]? = some w) :
    ∃ u, Runs (words.take i) s u ∧ u.mem.readWord (wordAddr s.pc i) = w := by
  obtain ⟨hi, hget⟩ := List.getElem?_eq_some_iff.1 hw
  rw [← List.take_append_drop i words] at h
  obtain ⟨u, hfirst, hrest⟩ := h.split
  have hpc : u.pc = wordAddr s.pc i := by
    rw [hfirst.pc, List.length_take, Nat.min_eq_left (Nat.le_of_lt hi)]
  refine ⟨u, hfirst, ?_⟩
  -- The word is the first of those that are still to run, so that the run fetches it at `u`.
  rw [List.drop_eq_getElem_cons hi, hget] at hrest
  cases hrest
  rw [hpc]

end Runs

/-! ## Ends -/

/-- How a block goes on at `u` where `left` more instructions fit: what comes of it, the words it adds
or a fault, and the state it leaves. -/
inductive Ends : Nat → State → Except Fault (List UInt32) → State → Prop where
  | limit (u : State) : Ends 0 u (.ok []) u
  | fault {u : State} {fault : Fault} (left : Nat)
      (flow : (decode (u.mem.readWord u.pc)).hasDelaySlot = false)
      (run : execute u u.pc (decode (u.mem.readWord u.pc)) = .error fault) :
      Ends (left + 1) u (.error fault) u
  | transfer {u t : State} {r : Except Fault (List UInt32)} (left : Nat)
      (flow : (decode (u.mem.readWord u.pc)).hasDelaySlot = true)
      (run : stepTransfer u (u.mem.readWord u.pc) = (r, t)) : Ends (left + 1) u r t

/-- A block runs words that transfer no control, and then it ends. -/
theorem course_of_stepWords (h : stepWords limit s = (r, t)) :
    ∃ words left u r', Runs words s u ∧ words.length + left = limit ∧ Ends left u r' t ∧
      r = r'.map (words ++ ·) := by
  -- One instruction after the other is put in front of the course of the rest of the block.
  induction limit generalizing s r with
  | zero =>
    cases h
    exact ⟨[], 0, _, .ok [], .nil _, rfl, .limit _, rfl⟩
  | succ limit ih =>
    obtain ⟨hflow, hrun⟩ | ⟨hflow, ⟨fault, hrun, rfl, rfl⟩ | ⟨s', rest, hrun, hrest, rfl⟩⟩ :=
      stepWords_succ_cases h
    · refine ⟨[], limit + 1, s, r, .nil s, Nat.zero_add _, .transfer limit hflow hrun, ?_⟩
      cases r <;> rfl
    · exact ⟨[], limit + 1, _, .error fault, .nil _, Nat.zero_add _, .fault limit hflow hrun, rfl⟩
    · obtain ⟨words, left, u, r', hwords, hlength, hends, rfl⟩ := ih hrest
      refine ⟨s.mem.readWord s.pc :: words, left, u, r', .cons hflow hrun hwords, ?_, hends, ?_⟩
      · rw [List.length_cons, ← hlength]
        omega
      · cases r' <;> rfl

/-- A block that does not fault runs to its limit, or up to a transfer and its delay slot. -/
theorem course_of_ok (h : stepWords limit s = (.ok words, t)) :
    (Runs words s t ∧ words.length = limit) ∨
      ∃ before last u, words = before ++ last ∧ before.length < limit ∧ Runs before s u ∧
        (decode (u.mem.readWord u.pc)).hasDelaySlot = true ∧
        stepTransfer u (u.mem.readWord u.pc) = (.ok last, t) := by
  obtain ⟨before, left, u, r', hruns, hlength, hends, hwords⟩ := course_of_stepWords h
  cases hends with
  | limit u =>
    obtain rfl : words = before ++ [] := Except.ok.inj hwords
    rw [List.append_nil]
    exact .inl ⟨hruns, hlength⟩
  | fault => cases hwords
  | @transfer _ _ r' left flow run =>
    cases r' with
    | error fault => cases hwords
    | ok last =>
      exact .inr ⟨before, last, u, Except.ok.inj hwords, by omega, hruns, flow, run⟩

/-- A block that faults runs up to the instruction or the transfer that does. -/
theorem course_of_error (h : stepWords limit s = (.error fault, t)) :
    ∃ before left u, before.length + (left + 1) = limit ∧ Runs before s u ∧
      Ends (left + 1) u (.error fault) t := by
  obtain ⟨before, left, u, r', hruns, hlength, hends, hfault⟩ := course_of_stepWords h
  cases r' with
  | ok last => cases hfault
  | error fault' =>
    cases hfault
    cases left with
    | zero => cases hends
    | succ left => exact ⟨before, left, u, hlength, hruns, hends⟩

/-! ## Steps -/

/-- The trace of a step starts at the program counter and has the words that ran. -/
theorem words_of_step_ok {trace : Trace} (h : step limit s = (.ok trace, t)) :
    trace.entry = s.pc ∧ stepWords (max limit 1) s = (.ok trace.words, t) := by
  unfold step at h
  split at h
  · next hwords =>
    cases h
    exact ⟨rfl, hwords⟩
  · cases h

/-- A fault of a block is one of its words. -/
theorem words_of_step_error (h : step limit s = (.error fault, t)) :
    stepWords (max limit 1) s = (.error fault, t) := by
  unfold step at h
  split at h
  · cases h
  · next hwords =>
    cases h
    exact hwords

end HotRegion.Machine
