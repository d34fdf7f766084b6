import HotRegion.Proofs.Machine.BlockRun

/-!
# Faults

A block that faults stops at the instruction that does, which has changed nothing. All that ran
before it has had its effect and is counted: the straight code of the block, and if the fault is in a
delay slot the transfer before it, with the link that it writes.

## Key results

- `execute_eq_error_iff`: which instructions fault, and how
- `stops_of_stepWords`: where a block that faults stops
- `step_faults_precisely`: both, and that a fault changes nothing
-/

namespace HotRegion.Isa

/-! ## Overflow -/

/-- A word as a signed number. -/
def signed (w : UInt32) : Int := w.toInt32.toInt

/-- The signed value of a sum, cut to a word. -/
theorem signed_add (a b : UInt32) : signed (a + b) = (signed a + signed b).bmod 0x100000000 := by
  unfold signed
  exact UInt32.toInt32_add a b ▸ Int32.toInt_add a.toInt32 b.toInt32

/-- The signed value of a difference, cut to a word. -/
theorem signed_sub (a b : UInt32) : signed (a - b) = (signed a - signed b).bmod 0x100000000 := by
  unfold signed
  exact UInt32.toInt32_sub a b ▸ Int32.toInt_sub a.toInt32 b.toInt32

/-- The signed value of a word is within its range. -/
theorem signed_bounds (w : UInt32) : -0x80000000 ≤ signed w ∧ signed w ≤ 0x7fffffff :=
  ⟨Int32.le_toInt _, Int.le_of_lt_add_one (Int32.toInt_lt _)⟩

/-- An addition overflows if the word it gives is not the sum. -/
theorem addOverflows_iff (a b : UInt32) :
    addOverflows a b = true ↔ signed (a + b) ≠ signed a + signed b := by
  have ha := signed_bounds a
  have hb := signed_bounds b
  -- The word is the sum reduced to 32 bits, which is the sum itself unless that is out of bounds.
  rw [signed_add, Int.bmod_def]
  simp only [addOverflows, Bool.or_eq_true, decide_eq_true_iff]
  change signed a + signed b < _ ∨ _ < signed a + signed b ↔ _
  omega

/-- A subtraction overflows if the word it gives is not the difference. -/
theorem subOverflows_iff (a b : UInt32) :
    subOverflows a b = true ↔ signed (a - b) ≠ signed a - signed b := by
  have ha := signed_bounds a
  have hb := signed_bounds b
  rw [signed_sub, Int.bmod_def]
  simp only [subOverflows, Bool.or_eq_true, decide_eq_true_iff]
  change signed a - signed b < _ ∨ _ < signed a - signed b ↔ _
  omega

/-! ## Traps -/

/-- The condition of a trap, on words as signed or as unsigned numbers. -/
def TrapCond.Holds (a b : UInt32) : TrapCond → Prop
  | eq => a = b
  | ne => a ≠ b
  | geS => signed b ≤ signed a
  | geU => b.toNat ≤ a.toNat
  | ltS => signed a < signed b
  | ltU => a.toNat < b.toNat

/-- A trap compares the values as its condition says. -/
theorem TrapCond.eval_iff (cond : TrapCond) (a b : UInt32) :
    cond.eval a b = true ↔ cond.Holds a b := by
  have hless : lessS a b = true ↔ signed a < signed b := by
    rw [lessS, decide_eq_true_iff, Int32.lt_iff_toInt_lt]
    rfl
  cases cond with
  | eq => exact beq_iff_eq
  | ne => exact bne_iff_ne
  | geS =>
    change (!lessS a b) = true ↔ signed b ≤ signed a
    rw [Bool.not_eq_true', ← Bool.not_eq_true, hless, Int.not_lt]
  | geU => exact decide_eq_true_iff.trans UInt32.le_iff_toNat_le
  | ltS => exact hless
  | ltU => exact decide_eq_true_iff.trans UInt32.lt_iff_toNat_lt

end HotRegion.Isa

namespace HotRegion.Machine

open Isa

variable {s t u : State} {addr : UInt32} {insn : Instr} {fault : Fault} {limit left : Nat}

/-! ## Instructions that fault -/

/-- The faults of an instruction at `addr` in state `s`. -/
inductive State.Faults (s : State) (addr : UInt32) : Instr → Fault → Prop where
  | syscall : s.Faults addr .syscall (.syscall addr)
  | breakpoint : s.Faults addr .breakpoint (.breakpoint addr)
  | unknown (word : UInt32) : s.Faults addr (.unknown word) (.unknown addr word)
  | trap {cond : TrapCond} {rs rt : Gpr} (holds : cond.Holds (s.reg rs) (s.reg rt)) :
      s.Faults addr (.trap cond rs rt) (.trap addr)
  | add {rd rs rt : Gpr}
      (overflows : signed (s.reg rs + s.reg rt) ≠ signed (s.reg rs) + signed (s.reg rt)) :
      s.Faults addr (.alu .addS rd rs rt) (.overflow addr)
  | sub {rd rs rt : Gpr}
      (overflows : signed (s.reg rs - s.reg rt) ≠ signed (s.reg rs) - signed (s.reg rt)) :
      s.Faults addr (.alu .subS rd rs rt) (.overflow addr)
  | addImm {rt rs : Gpr} {value : UInt16}
      (overflows : signed (s.reg rs + signExtend16 value) ≠
        signed (s.reg rs) + signed (signExtend16 value)) :
      s.Faults addr (.imm .addS rt rs value) (.overflow addr)

/-- A fault names the address of its instruction. -/
theorem State.Faults.addr_eq (h : s.Faults addr insn fault) : fault.addr = addr := by
  cases h <;> rfl

/-- Nothing else faults, and nothing faults otherwise. -/
theorem execute_eq_error_iff : execute s addr insn = .error fault ↔ s.Faults addr insn fault := by
  constructor
  · intro h
    cases insn with
    | alu op rd rs rt =>
      simp only [execute] at h
      split at h
      · next hoverflows =>
        cases h
        cases op with
        | addS => exact .add ((addOverflows_iff _ _).1 hoverflows)
        | subS => exact .sub ((subOverflows_iff _ _).1 hoverflows)
        | _ => cases hoverflows
      · cases h
    | imm op rt rs value =>
      simp only [execute] at h
      split at h
      · next hoverflows =>
        cases h
        cases op with
        | addS => exact .addImm ((addOverflows_iff _ _).1 hoverflows)
        | _ => cases hoverflows
      · cases h
    | trap cond rs rt =>
      simp only [execute] at h
      split at h
      · next hholds =>
        cases h
        exact .trap ((TrapCond.eval_iff ..).1 hholds)
      · cases h
    | syscall | breakpoint | unknown =>
      cases h
      constructor
    | hiLoMove move => cases move <;> cases h
    | fpLoad fmt | fpStore fmt => cases fmt <;> cases h
    | _ => cases h
  · intro h
    cases h with
    | syscall | breakpoint | unknown => rfl
    | trap holds => exact if_pos ((TrapCond.eval_iff ..).2 holds)
    | add overflows => exact if_pos ((addOverflows_iff _ _).2 overflows)
    | sub overflows => exact if_pos ((subOverflows_iff _ _).2 overflows)
    | addImm overflows => exact if_pos ((addOverflows_iff _ _).2 overflows)

/-! ## Blocks that fault -/

/-- A block from `s` on, of at most `limit` words before its end, stops with a fault in a state. -/
inductive Stops (limit : Nat) (s : State) (fault : Fault) : State → Prop where
  /-- At an instruction, in the state that the words before it lead to. -/
  | straight {t : State} {before : List UInt32} (room : before.length < limit)
      (runs : Runs before s t) (flow : (decode (t.mem.readWord t.pc)).hasDelaySlot = false)
      (faults : t.Faults t.pc (decode (t.mem.readWord t.pc)) fault)
      (icnt : t.icnt = s.icnt + UInt64.ofNat before.length) : Stops limit s fault t
  /-- At a delay slot, when the transfer `w` before it has been linked and counted: the delay slot
  faults, or is a transfer itself. -/
  | slot {t u : State} {before : List UInt32} {w : UInt32} (room : before.length < limit)
      (runs : Runs before s u) (word : u.mem.readWord u.pc = w)
      (flow : (decode w).hasDelaySlot = true)
      (linked : t = { (u.link u.pc (decode w)).retire with pc := u.pc + 4 })
      (faults : (decode (t.mem.readWord t.pc)).hasDelaySlot = false ∧
          t.Faults t.pc (decode (t.mem.readWord t.pc)) fault ∨
        (decode (t.mem.readWord t.pc)).hasDelaySlot = true ∧
          fault = .unknown t.pc (t.mem.readWord t.pc))
      (icnt : t.icnt = s.icnt + UInt64.ofNat (before.length + 1)) : Stops limit s fault t

/-- A machine that has stopped is at the instruction that the fault names. -/
theorem Stops.pc (h : Stops limit s fault t) : t.pc = fault.addr := by
  cases h with
  | straight _ _ _ faults => exact faults.addr_eq.symm
  | slot _ _ _ _ _ faults =>
    obtain ⟨-, faults⟩ | ⟨-, rfl⟩ := faults
    · exact faults.addr_eq.symm
    · rfl

/-- A block that faults stops. -/
theorem stops_of_stepWords (h : stepWords limit s = (.error fault, t)) : Stops limit s fault t := by
  obtain ⟨before, left, u, hlength, hruns, hends⟩ := course_of_error h
  have hroom : before.length < limit := by omega
  cases hends with
  | fault _ flow run =>
    -- An instruction that transfers no control: only the straight code before it has run.
    exact .straight hroom hruns flow (execute_eq_error_iff.1 run) hruns.icnt
  | transfer _ flow run =>
    -- A transfer does not fault itself, so that it has taken effect and counts for one more.
    obtain ⟨ht, hslot⟩ := stepTransfer_eq_error run
    refine .slot hroom hruns rfl flow ht ?_ ?_
    · obtain hslot | ⟨hflow, hfault⟩ := hslot
      · exact .inr hslot
      · exact .inl ⟨hflow, execute_eq_error_iff.1 hfault⟩
    · rw [ht, icnt_inSlot, hruns.icnt, UInt64.add_assoc, UInt64.ofNat_add]
      rfl

/-- An instruction that faults first in a block leaves the state as it is. -/
theorem step_of_faults (limit : Nat) (hflow : (decode (s.mem.readWord s.pc)).hasDelaySlot = false)
    (hfaults : s.Faults s.pc (decode (s.mem.readWord s.pc)) fault) :
    step limit s = (.error fault, s) := by
  obtain ⟨n, hn⟩ : ∃ n, max limit 1 = n + 1 := ⟨max limit 1 - 1, by omega⟩
  simp only [step, hn, stepWords, hflow, execute_eq_error_iff.2 hfaults, Bool.false_eq_true, if_false]

/-- Faults are precise. A block that faults leaves the machine at the instruction that the fault
names, which has changed nothing, in the state that all before it in the block has led to and with all
of it counted. Instructions fault if they ask the environment for help or mean nothing, on a trap whose
condition holds, and where the signed result of an addition or a subtraction does not fit. -/
theorem step_faults_precisely :
    (∀ limit s fault t, step limit s = (.error fault, t) →
      t.pc = fault.addr ∧ Stops (max limit 1) s fault t) ∧
    (∀ s addr insn fault, execute s addr insn = .error fault ↔ s.Faults addr insn fault) ∧
    ∀ limit s fault, (decode (s.mem.readWord s.pc)).hasDelaySlot = false →
      s.Faults s.pc (decode (s.mem.readWord s.pc)) fault → step limit s = (.error fault, s) := by
  refine ⟨fun limit s fault t h => ?_, fun _ _ _ _ => execute_eq_error_iff,
    fun limit _ _ hflow hfaults => step_of_faults limit hflow hfaults⟩
  have hstops := stops_of_stepWords (words_of_step_error h)
  exact ⟨hstops.pc, hstops⟩

/-- A machine before `addiu $8, $8, 5` and `jal 0x40`, whose delay slot doubles the largest signed
word. -/
def doubling : State :=
  (State.initial ((Memory.zeroed 6 (by decide)).loadWords 0x20 [0x25080005, 0x0c000010, 0x01294020])
    0x20).setReg (.ofNat 9) 0x7fffffff

/-- The sum overflows in the delay slot, when the return address is written and two instructions are
counted. -/
theorem step_faults_precisely_doubling :
    step 8 doubling = (.error (.overflow 0x28), (step 8 doubling).2) ∧
      (step 8 doubling).2.pc = 0x28 ∧ Stops 8 doubling (.overflow 0x28) (step 8 doubling).2 ∧
      (step 8 doubling).2.reg .ra = 0x2c ∧ (step 8 doubling).2.icnt = 2 := by
  have hfault : (step 8 doubling).1 = .error (.overflow 0x28) := by rfl
  have hstep : step 8 doubling = (.error (.overflow 0x28), (step 8 doubling).2) :=
    Prod.ext hfault rfl
  obtain ⟨hpc, hstops⟩ := step_faults_precisely.1 8 doubling _ _ hstep
  exact ⟨hstep, hpc, hstops, by rfl, by rfl⟩

end HotRegion.Machine
