import HotRegion.Proofs.Machine.Accesses

/-!
# Constants of straight code

What is known of the general registers is so in every run: an instruction that is said to compute a
constant writes that constant, and the registers it does not define keep theirs. So what is known
after a block is so when the block is done.

## Key results

- `Holds.execute`, `Holds.link`: one instruction
- `Holds.executeAll`: a list of instructions
- `constants_sound`: the same, and blocks that do not end in a likely branch
-/

namespace HotRegion.Machine

open Isa

/-- Runs instructions at consecutive addresses from `addr` on. -/
def executeAll (s : State) (addr : UInt32) : List Instr → Except Fault State
  | [] => .ok s
  | insn :: rest => do
    let s' ← execute s addr insn
    executeAll s' (addr + 4) rest

end HotRegion.Machine

namespace HotRegion.Analysis.ConstRegs

open Isa
open Machine (State Trace execute executeAll step stepWords Untouched)
open Region (Tracked Block)

variable {regs : ConstRegs} {g g' s t : State} {addr x : UInt32} {insn : Instr} {r : Gpr}
  {v : ConstValue} {words : List UInt32} {limit : Nat}

/-- The registers that are known to hold a constant hold it. -/
def Holds (regs : ConstRegs) (g : State) : Prop := ∀ r v, regs.constant? r = some v → g.reg r = v

/-! ## Tables -/

theorem constant?_set (regs : ConstRegs) (r r' : Gpr) (v : ConstValue) :
    (regs.set r v).constant? r' =
      if r' = r ∧ r.isZero = false then v.constant? else regs.constant? r' := by
  unfold set constant? get
  by_cases hz : r.isZero = true
  · simp [hz]
  · simp only [hz, Bool.false_eq_true, if_false, and_true, get_set, Gpr.num_inj]
    split <;> rfl

/-- Setting all general registers of a list. -/
private theorem constant?_foldl_set (refs : List RegRef) (regs : ConstRegs) (r : Gpr) :
    (refs.foldl (fun regs ref =>
      match ref with
      | .gpr r => regs.set r v
      | _ => regs) regs).constant? r =
      if .gpr r ∈ refs ∧ r.isZero = false then v.constant? else regs.constant? r := by
  induction refs generalizing regs with
  | nil => simp
  | cons ref refs ih =>
    rw [List.foldl_cons, ih]
    cases ref with
    | gpr r' =>
      simp only [constant?_set, List.mem_cons, RegRef.gpr.injEq]
      by_cases hr : r = r'
      · subst hr
        cases r.isZero <;> simp
      · simp [hr]
    | _ => simp

/-- After an instruction, the register it defines is known to hold what its operands fold to. -/
theorem constant?_update (regs : ConstRegs) (addr : UInt32) (insn : Instr) (r : Gpr) :
    (regs.update addr insn).constant? r =
      if .gpr r ∈ insn.effectiveDefs then regs.fold addr insn else regs.constant? r := by
  have hzero : .gpr r ∈ insn.effectiveDefs → r.isZero = false := fun hmem =>
    Gpr.isZero_eq_false fun hr => by simp [Instr.effectiveDefs, hr] at hmem
  refine (constant?_foldl_set insn.effectiveDefs regs r).trans ?_
  by_cases hmem : RegRef.gpr r ∈ insn.effectiveDefs
  · rw [if_pos ⟨hmem, hzero hmem⟩, if_pos hmem]
    cases regs.fold addr insn <;> rfl
  · rw [if_neg fun h => hmem h.1, if_neg hmem]

/-! ## One instruction -/

/-- An instruction whose operands fold writes the result to the one general register it defines,
unless it faults. -/
theorem execute_of_fold (h : regs.fold addr insn = some x) (hflow : insn.hasDelaySlot = false) :
    ∃ rd, insn.defs = [.gpr rd] ∧ ∀ g g' : State, regs.Holds g → execute g addr insn = .ok g' →
      g' = g.setReg rd x := by
  cases insn with
  | branchZeroLink | jumpLink | jumpLinkReg => cases hflow
  | shift op rd rt amount =>
    refine ⟨rd, rfl, fun g g' hg hrun => ?_⟩
    obtain ⟨a, ha, hx⟩ := Option.bind_eq_some_iff.1 h
    rw [← Option.some.inj hx, ← hg rt a ha]
    exact (Except.ok.inj hrun).symm
  | alu op rd rs rt =>
    refine ⟨rd, rfl, fun g g' hg hrun => ?_⟩
    have hbind : ((if op.readsDestination then regs.constant? rd else some 0).bind fun old =>
        (regs.constant? rs).bind fun a => (regs.constant? rt).bind fun b =>
          some (op.eval a b old)) = some x := by
      cases op <;> exact h
    obtain ⟨old, hold, hbind⟩ := Option.bind_eq_some_iff.1 hbind
    obtain ⟨a, ha, hbind⟩ := Option.bind_eq_some_iff.1 hbind
    obtain ⟨b, hb, hbind⟩ := Option.bind_eq_some_iff.1 hbind
    simp only [execute] at hrun
    split at hrun
    · cases hrun
    rw [← Option.some.inj hbind, ← hg rs a ha, ← hg rt b hb, ← Except.ok.inj hrun]
    -- Only the conditional moves look at the old value of their destination.
    cases op
    case moveIfZero | moveIfNotZero => rw [← hg rd old hold]
    all_goals rfl
  | unary op rd src =>
    refine ⟨rd, rfl, fun g g' hg hrun => ?_⟩
    obtain ⟨a, ha, hx⟩ := Option.bind_eq_some_iff.1 h
    rw [← Option.some.inj hx, ← hg src a ha]
    exact (Except.ok.inj hrun).symm
  | imm op rt rs value =>
    refine ⟨rt, rfl, fun g g' hg hrun => ?_⟩
    obtain ⟨a, ha, hx⟩ := Option.bind_eq_some_iff.1 h
    simp only [execute] at hrun
    split at hrun
    · cases hrun
    rw [← Option.some.inj hx, ← hg rs a ha, ← Except.ok.inj hrun]
  | loadUpper rt value =>
    refine ⟨rt, rfl, fun g g' hg hrun => ?_⟩
    rw [← Option.some.inj h]
    exact (Except.ok.inj hrun).symm
  | _ => cases h

/-- What is known after an instruction is so if the register it defines gets what its operands fold
to, and the others keep what they had. -/
theorem Holds.update (hg : regs.Holds g)
    (hwritten : ∀ r, .gpr r ∈ insn.effectiveDefs → ∀ x, regs.fold addr insn = some x → g'.reg r = x)
    (hkept : ∀ r, Untouched insn (.gpr r) → g'.reg r = g.reg r) :
    (regs.update addr insn).Holds g' := by
  intro r x hx
  rw [constant?_update] at hx
  split at hx
  · next hdef => exact hwritten r hdef x hx
  · next hdef =>
    rw [hkept r (Machine.untouched_gpr hdef)]
    exact hg r x hx

/-- The defined register of an instruction with one, after it is set. -/
private theorem reg_setReg_of_defs {rd : Gpr} (hdefs : insn.defs = [.gpr rd])
    (hdef : .gpr r ∈ insn.effectiveDefs) (g : State) (x : UInt32) : (g.setReg rd x).reg r = x := by
  have hdef : RegRef.gpr r ∈ [RegRef.gpr rd].filter (· != .gpr .zero) := by
    rw [← hdefs]
    exact hdef
  obtain ⟨hmem, hzero⟩ := List.mem_filter.1 hdef
  obtain rfl : r = rd := RegRef.gpr.inj (List.mem_singleton.1 hmem)
  rw [State.reg_setReg, if_pos ⟨rfl, Gpr.isZero_eq_false fun hr => by simp [hr] at hzero⟩]

/-- An instruction that transfers no control. -/
theorem Holds.execute (hg : regs.Holds g) (hflow : insn.hasDelaySlot = false)
    (h : execute g addr insn = .ok g') : (regs.update addr insn).Holds g' := by
  refine hg.update (fun r hdef x hfold => ?_) fun r hr =>
    Machine.reg_execute h hr
  obtain ⟨rd, hdefs, hrun⟩ := execute_of_fold hfold hflow
  rw [hrun g g' hg h]
  exact reg_setReg_of_defs hdefs hdef g x

/-- A transfer, which writes its return address if it links. -/
theorem Holds.link (hg : regs.Holds g) (hflow : insn.hasDelaySlot = true) :
    (regs.update addr insn).Holds (g.link addr insn) := by
  refine hg.update (fun r hdef x hfold => ?_) fun r hr =>
    UInt32.toUInt64_inj.1 (Region.unit_link g addr hr)
  cases insn with
  | branchZeroLink | jumpLink | jumpLinkReg =>
    cases hfold
    exact reg_setReg_of_defs rfl hdef g _
  | branch | branchZero | branchFp | jump | jumpReg => cases hfold
  | _ => cases hflow

/-! ## Code -/

/-- Instructions that transfer no control and do not fault. -/
theorem Holds.executeAll {insns : List Instr} (hg : regs.Holds g)
    (hflow : ∀ insn ∈ insns, insn.hasDelaySlot = false) (h : executeAll g addr insns = .ok g') :
    (regs.run addr insns).Holds g' := by
  induction insns generalizing g regs addr with
  | nil =>
    cases h
    exact hg
  | cons insn rest ih =>
    unfold Machine.executeAll at h
    cases hrun : Machine.execute g addr insn with
    | error fault =>
      rw [hrun] at h
      cases h
    | ok g₁ =>
      rw [hrun] at h
      have hupdate := hg.execute (hflow insn List.mem_cons_self) hrun
      exact ih hupdate (fun i hi => hflow i (List.mem_cons_of_mem _ hi)) h

/-- The program counter and the count of instructions are no general registers. -/
theorem Holds.clock (hg : regs.Holds g) (pc : UInt32) (icnt : UInt64) :
    regs.Holds { g with pc := pc, icnt := icnt } := hg

/-- A transfer that is not a likely branch, and its delay slot. -/
theorem Holds.stepTransfer {word : UInt32} (hs : regs.Holds s)
    (hflow : (decode word).hasDelaySlot = true) (hlikely : (decode word).isLikelyBranch = false)
    (h : Machine.stepTransfer s word = (.ok words, t)) :
    (regs.run s.pc (words.map decode)).Holds t := by
  obtain ⟨rfl, hslot, ⟨hskips, -⟩ | ⟨-, s', hrun, rfl⟩⟩ := Machine.stepTransfer_eq_ok h
  · rw [hlikely] at hskips
    cases hskips
  · have hlinked : (regs.update s.pc (decode word)).Holds (s.inSlot word) := hs.link hflow
    exact (hlinked.execute hslot hrun).clock _ _

/-- Instructions up to a limit or a transfer that is not a likely branch. -/
theorem Holds.stepWords (hs : regs.Holds s)
    (hlikely : ∀ i w, i + 2 = words.length → words[i]? = some w →
      (decode w).isLikelyBranch = false)
    (h : stepWords limit s = (.ok words, t)) : (regs.run s.pc (words.map decode)).Holds t := by
  induction limit generalizing s regs words with
  | zero =>
    cases h
    exact hs
  | succ limit ih =>
    obtain ⟨hflow, h⟩ | ⟨hflow, s', rest, hrun, hrest, rfl⟩ := Machine.stepWords_succ_eq_ok h
    · have hwords := (Machine.stepTransfer_eq_ok h).1
      refine hs.stepTransfer hflow ?_ h
      exact hlikely 0 _ (by rw [hwords]; rfl) (by rw [hwords]; rfl)
    · have hnext : (regs.update s.pc (decode (s.mem.readWord s.pc))).Holds
          { s'.retire with pc := s.pc + 4 } := (hs.execute hflow hrun).clock _ _
      have htail := ih hnext (fun i w hi hw => hlikely (i + 1) w (by simp [← hi]) hw) hrest
      exact htail

/-- The second to last instruction of a block that does not end in a likely branch is none. -/
theorem not_likely_of_endsInLikely {b : Block} (h : b.endsInLikely = false) {i : Nat} {w : UInt32}
    (hi : i + 2 = b.words.length) (hw : b.words[i]? = some w) :
    (decode w).isLikelyBranch = false := by
  cases hlikely : (decode w).isLikelyBranch with
  | false => rfl
  | true =>
    have hflow : (decode w).hasDelaySlot = true := by
      obtain ⟨_, _, hcontrol⟩ := (Instr.isLikelyBranch_iff (decode w) 0).1 hlikely
      rw [Instr.hasDelaySlot, hcontrol]
      rfl
    rw [Block.endsInLikely_eq (Block.transfer_of_getElem? hi hw hflow), hlikely] at h
    cases h

/-- Constant propagation is sound. Let the registers that are known to hold a constant hold it. Then
so they do after any instructions that transfer no control and do not fault, and when the machine has
stepped over a block that does not end in a likely branch: with all that its body is known to
leave. -/
theorem constants_sound (hs : regs.Holds s) :
    (∀ (addr : UInt32) (insns : List Instr) (t : State),
      (∀ insn ∈ insns, insn.hasDelaySlot = false) → executeAll s addr insns = .ok t →
        (regs.run addr insns).Holds t) ∧
    ∀ (limit : Nat) (trace : Trace) (t : State), step limit s = (.ok trace, t) →
      (Block.ofTrace trace).endsInLikely = false →
        ((Block.ofTrace trace).constantRegs regs).Holds t := by
  refine ⟨fun addr insns t hflow h => hs.executeAll hflow h, fun limit trace t h hlikely => ?_⟩
  unfold step at h
  split at h
  · next words t' hwords =>
    cases h
    have hbody : (Block.ofTrace ⟨s.pc, words⟩).body = words.map decode := by
      rw [Block.body, if_neg (by simp [hlikely])]
      rfl
    rw [Block.constantRegs, hbody]
    exact hs.stepWords (fun i w => not_likely_of_endsInLikely hlikely) hwords
  · cases h

/-- A machine before `jalr $9, $9` with `addiu $9, $9, 4` in its delay slot. -/
def relinked : State :=
  (State.initial ((Machine.Memory.zeroed 9 (by decide)).loadWords 0x20 [0x01204809, 0x25290004])
    0x20).setReg (.ofNat 9) 0x80

/-- The return address is what the delay slot reads, and no longer the target of the jump. -/
theorem constants_sound_relinked :
    ConstRegs.variant.Holds relinked ∧
      step 8 relinked = (.ok ⟨0x20, [0x01204809, 0x25290004]⟩, (step 8 relinked).2) ∧
      (Block.ofTrace ⟨0x20, [0x01204809, 0x25290004]⟩).endsInLikely = false ∧
      (step 8 relinked).2.reg (.ofNat 9) = 0x2c := by
  have hknown : ∀ n : Fin 32, ConstRegs.variant.constant? ⟨n⟩ = if n = 0 then some 0 else none := by
    decide
  have hs : ConstRegs.variant.Holds relinked := by
    rintro ⟨n⟩ v hv
    rw [hknown] at hv
    split at hv
    · next hn =>
      subst hn
      exact Option.some.inj hv
    · cases hv
  have hok : (step 8 relinked).1 = .ok ⟨0x20, [0x01204809, 0x25290004]⟩ := by decide +kernel
  have hstep : step 8 relinked = (.ok ⟨0x20, [0x01204809, 0x25290004]⟩, (step 8 relinked).2) :=
    Prod.ext hok rfl
  have hlikely : (Block.ofTrace ⟨0x20, [0x01204809, 0x25290004]⟩).endsInLikely = false := by
    decide +kernel
  exact ⟨hs, hstep, hlikely,
    (constants_sound hs).2 8 _ _ hstep hlikely (.ofNat 9) 0x2c (by decide +kernel)⟩

end HotRegion.Analysis.ConstRegs
