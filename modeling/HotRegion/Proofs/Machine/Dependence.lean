import HotRegion.Machine.Step
import HotRegion.Proofs.Isa.Decoding
import HotRegion.Proofs.Machine.Units

/-!
# What instructions read and write

An instruction reads the registers that it is said to use, and memory if it is a load; it writes the
registers that it is said to define, and memory if it is a store. Two runs that start with the same
in all that is read have the same outcome and end with the same in all that is written, whatever
else is different.

## Key results

- `framed_execute`: what an instruction leaves alone
- `sameOutcome_execute`: two runs from states with the same inputs
- `execute_depends_on_uses`: both for all instructions that words decode to
-/

namespace HotRegion.Isa

namespace Instr

/-- The instruction reads memory. -/
def isLoad : Instr → Bool
  | load .. | fpLoad .. => true
  | _ => false

/-- The instruction writes memory. -/
def isStore : Instr → Bool
  | store .. | fpStore .. => true
  | _ => false

end Instr

end HotRegion.Isa

namespace HotRegion.Machine

open Isa
open Region (Tracked)

variable {s s' t t' : State} {addr x y : UInt32} {v w : UInt64} {insn : Instr} {r : Gpr} {f : Fpr}
  {c : Fcr} {fmt : FpFormat}

/-! ## Stores -/

/-- A store with the bits that are written. -/
structure Write where
  addr : UInt32
  width : Width
  bits : UInt64

/-- Memory after an instruction that writes or does not. -/
def Memory.after (m : Memory) : Option Write → Memory
  | none => m
  | some write => m.write write.addr write.width write.bits

/-- What an instruction writes to memory. -/
def State.write? (s : State) : Instr → Option Write
  | .store op rt base offset =>
    some ⟨s.effectiveAddr base offset, State.storeWidth op, (s.reg rt).toUInt64⟩
  | .fpStore .single ft base offset =>
    some ⟨s.effectiveAddr base offset, .word, (s.fprBits ft).toUInt64⟩
  | .fpStore .double ft base offset => some ⟨s.effectiveAddr base offset, .double, s.pairBits ft⟩
  | _ => none

/-- An instruction that is no store writes no memory. -/
theorem State.write?_eq_none (s : State) (h : insn.isStore = false) : s.write? insn = none := by
  cases insn <;> first | rfl | cases h

/-- Memory changes by what an instruction writes to it alone. -/
theorem mem_execute (h : execute s addr insn = .ok s') : s'.mem = s.mem.after (s.write? insn) := by
  cases insn with
  | shift | unary | loadUpper | load | moveFromFpu | moveFromFcr =>
    cases h
    exact State.mem_setReg ..
  | alu | imm =>
    simp only [execute] at h
    split at h <;> cases h
    exact State.mem_setReg ..
  | hiLoMove move =>
    cases move <;> cases h
    · exact State.mem_setReg ..
    · exact State.mem_setReg ..
    · rfl
    · rfl
  | fpAlu _ fmt | fpLoad fmt | fpStore fmt => cases fmt <;> cases h <;> rfl
  | fpUnary op =>
    cases h
    change (State.fpUnary s op _ _).mem = s.mem
    unfold State.fpUnary
    split <;> rfl
  | trap =>
    simp only [execute] at h
    split at h <;> cases h
    rfl
  | syscall | breakpoint | unknown => cases h
  | _ =>
    cases h
    rfl

/-! ## What stays -/

/-- What an instruction leaves alone: every word of the register files that belongs to none of the
registers it defines, the program counter, the count of instructions, and memory unless it is a
store, which changes memory by what it writes. -/
structure Framed (insn : Instr) (s s' : State) : Prop where
  unit : ∀ u, Untouched insn u → s'.unit u = s.unit u
  pc : s'.pc = s.pc
  icnt : s'.icnt = s.icnt
  mem : insn.isStore = false → s'.mem = s.mem
  written : s'.mem = s.mem.after (s.write? insn)

/-- An instruction changes what it defines, and the memory that it stores to. -/
theorem framed_execute (h : execute s addr insn = .ok s') : Framed insn s s' where
  unit _ hu := unit_execute h hu
  pc := pc_execute h
  icnt := unit_execute h (untouched_icnt insn)
  mem hstore := by rw [mem_execute h, s.write?_eq_none hstore, Memory.after]
  written := mem_execute h

/-! ## States with the same in a register -/

namespace State

/-- Two states hold the same in a register; a double is in both words of its pair. -/
def SameAt (s t : State) : RegRef → Prop
  | .gpr r => s.reg r = t.reg r
  | .hiLo h => s.hiLo h = t.hiLo h
  | .fpr f .single => s.fprBits f = t.fprBits f
  | .fpr f .double =>
    s.fprBits f.base = t.fprBits f.base ∧ s.fprBits f.base.partner = t.fprBits f.base.partner
  | .fcr c => s.fcrBits c = t.fcrBits c

/-- The pairs are the same if their registers are. -/
theorem SameAt.pairBits (h : s.SameAt t (.fpr f .double)) : s.pairBits f = t.pairBits f := by
  rw [State.pairBits, State.pairBits, h.1, h.2]

/-- Data with the same bits denote the same. -/
theorem SameAt.fpValue (h : s.SameAt t (.fpr f fmt)) : s.fpValue fmt f = t.fpValue fmt f := by
  cases fmt with
  | single => exact congrArg Ieee.value32 h
  | double => exact congrArg Ieee.value64 h.pairBits

/-- An address depends on its base register alone. -/
theorem effectiveAddr_congr (h : s.reg r = t.reg r) (offset : UInt16) :
    s.effectiveAddr r offset = t.effectiveAddr r offset := by
  rw [effectiveAddr, effectiveAddr, h]

/-- A loaded value depends on memory and address alone. -/
theorem loadValue_congr (h : s.mem = t.mem) (op : LoadOp) (addr : UInt32) :
    s.loadValue op addr = t.loadValue op addr := by
  unfold loadValue
  rw [h]

end State

/-! ## Two runs -/

/-- An instruction has the same outcome from `s` and from `t`: the same fault, or states that hold
the same in every register that it defines, after the same write to memory if it is a store. -/
def SameOutcome (insn : Instr) (s t : State) : Except Fault State → Except Fault State → Prop
  | .ok s', .ok t' =>
    (∀ ref ∈ insn.effectiveDefs, s'.SameAt t' ref) ∧ s.write? insn = t.write? insn
  | .error fault, .error fault' => fault = fault'
  | _, _ => False

/-- Whatever is defined is among the registers listed, and not `$0`. -/
private theorem mem_defs {ref : RegRef} (h : ref ∈ insn.effectiveDefs) :
    ref ∈ insn.defs ∧ ref ≠ .gpr .zero := by
  simpa [Instr.effectiveDefs] using h

/-- An instruction that defines one register and does not store. -/
private theorem sameOutcome_of_defs {ref : RegRef} (hdefs : insn.defs = [ref])
    (hstore : insn.isStore = false) (h : ref ≠ .gpr .zero → s'.SameAt t' ref) :
    SameOutcome insn s t (.ok s') (.ok t') := by
  refine ⟨fun ref' href => ?_, by rw [s.write?_eq_none hstore, t.write?_eq_none hstore]⟩
  obtain ⟨hmem, hzero⟩ := mem_defs href
  obtain rfl : ref' = ref := by simpa [hdefs] using hmem
  exact h hzero

/-- Outcomes that write the same to one general register are the same. -/
private theorem sameOutcome_setReg (hdefs : insn.defs = [.gpr r]) (hstore : insn.isStore = false)
    (h : x = y) : SameOutcome insn s t (.ok (s.setReg r x)) (.ok (t.setReg r y)) := by
  refine sameOutcome_of_defs hdefs hstore fun hzero => ?_
  have hr : r.isZero = false := Gpr.isZero_eq_false fun heq => hzero (congrArg _ heq)
  change (s.setReg r x).reg r = (t.setReg r y).reg r
  rw [State.reg_setReg, State.reg_setReg, if_pos ⟨rfl, hr⟩, if_pos ⟨rfl, hr⟩, h]

/-- Outcomes that write the same to one single are the same. -/
private theorem sameOutcome_setFprBits (hdefs : insn.defs = [.fpr f .single])
    (hstore : insn.isStore = false) (h : x = y) :
    SameOutcome insn s t (.ok (s.setFprBits f x)) (.ok (t.setFprBits f y)) := by
  refine sameOutcome_of_defs hdefs hstore fun _ => ?_
  change (s.setFprBits f x).fprBits f = (t.setFprBits f y).fprBits f
  rw [State.fprBits_setFprBits, State.fprBits_setFprBits, if_pos rfl, if_pos rfl, h]

/-- Outcomes that write the same to one double are the same. -/
private theorem sameOutcome_setPairBits (hdefs : insn.defs = [.fpr f .double])
    (hstore : insn.isStore = false) (h : v = w) :
    SameOutcome insn s t (.ok (s.setPairBits f v)) (.ok (t.setPairBits f w)) := by
  refine sameOutcome_of_defs hdefs hstore fun _ => ?_
  have hne := (Fpr.partner_ne_base f).symm
  simp only [State.SameAt, State.setPairBits, State.fprBits_setFprBits, if_neg hne, if_true, h,
    and_self]

/-- Outcomes that write the same to one control register are the same. -/
private theorem sameOutcome_setFcr (hdefs : insn.defs = [.fcr c]) (hstore : insn.isStore = false)
    (h : x = y) : SameOutcome insn s t (.ok (s.setFcr c x)) (.ok (t.setFcr c y)) := by
  refine sameOutcome_of_defs hdefs hstore fun _ => ?_
  change (s.setFcr c x).fcrBits c = (t.setFcr c y).fcrBits c
  rw [State.fcrBits_setFcr, State.fcrBits_setFcr, if_pos rfl, if_pos rfl, h]

/-- An instruction that writes no register. -/
private theorem sameOutcome_of_defs_nil (hdefs : insn.defs = []) (h : s.write? insn = t.write? insn)
    (s' t' : State) : SameOutcome insn s t (.ok s') (.ok t') := by
  refine ⟨fun ref href => ?_, h⟩
  have hmem := (mem_defs href).1
  rw [hdefs] at hmem
  cases hmem

/-- An instruction that may fault: whether it does depends on its inputs, like its outcome. -/
private theorem sameOutcome_ite {p q : Prop} [Decidable p] [Decidable q] {fault : Fault}
    (hpq : p ↔ q) (h : SameOutcome insn s t (.ok s') (.ok t')) :
    SameOutcome insn s t (if p then .error fault else .ok s')
      (if q then .error fault else .ok t') := by
  by_cases hp : p
  · rw [if_pos hp, if_pos (hpq.1 hp)]
    rfl
  · rw [if_neg hp, if_neg (mt hpq.2 hp)]
    exact h

/-- Arithmetic on the same operands has the same outcome. -/
private theorem sameOutcome_fpAlu {op : FpAluOp} {fd fs ft : Fpr} (hs : s.SameAt t (.fpr fs fmt))
    (ht : s.SameAt t (.fpr ft fmt)) :
    SameOutcome (.fpAlu op fmt fd fs ft) s t (.ok (s.fpAlu op fmt fd fs ft))
      (.ok (t.fpAlu op fmt fd fs ft)) := by
  cases fmt with
  | single =>
    have hfs : s.fprBits fs = t.fprBits fs := hs
    have hft : s.fprBits ft = t.fprBits ft := ht
    refine sameOutcome_setFprBits rfl rfl ?_
    rw [hfs, hft]
  | double =>
    refine sameOutcome_setPairBits rfl rfl ?_
    rw [hs.pairBits, ht.pairBits]

/-- The formats say which words a conversion reads and writes, if they differ. -/
private theorem sameOutcome_fpUnary {op : FpUnaryOp} {fd fs : Fpr}
    (hconvert : ∀ fmt, op ≠ .convert fmt fmt) (hs : s.SameAt t (.fpr fs op.source)) :
    SameOutcome (.fpUnary op fd fs) s t (.ok (s.fpUnary op fd fs)) (.ok (t.fpUnary op fd fs)) := by
  -- Of the source only the bits of its format are read.
  have hword : op.source = .single → s.fprBits fs = t.fprBits fs := fun h => by
    rw [h] at hs
    exact hs
  have hpair : op.source = .double → s.pairBits fs = t.pairBits fs := fun h => by
    rw [h] at hs
    exact hs.pairBits
  cases op with
  | abs fmt | neg fmt | sqrt fmt | move fmt =>
    cases fmt
    · exact sameOutcome_setFprBits rfl rfl (by rw [hword rfl])
    · exact sameOutcome_setPairBits rfl rfl (by rw [hpair rfl])
  | convert target source =>
    cases target <;> cases source
    · exact absurd rfl (hconvert .single)
    · exact sameOutcome_setFprBits rfl rfl (by rw [hpair rfl])
    · exact sameOutcome_setPairBits rfl rfl (by rw [hword rfl])
    · exact absurd rfl (hconvert .double)
  | fromWord fmt =>
    cases fmt
    · exact sameOutcome_setFprBits rfl rfl (by rw [hword rfl])
    · exact sameOutcome_setPairBits rfl rfl (by rw [hword rfl])
  | toWord fmt | truncToWord fmt => exact sameOutcome_setFprBits rfl rfl (congrArg _ hs.fpValue)

/-- Two runs of an instruction that transfers no control, from states that hold the same in all that
it reads, have the same outcome. -/
theorem sameOutcome_execute (addr : UInt32) (hflow : insn.hasDelaySlot = false)
    (hconvert : ∀ fmt fd fs, insn ≠ .fpUnary (.convert fmt fmt) fd fs)
    (huses : ∀ ref ∈ insn.uses, s.SameAt t ref) (hmem : insn.isLoad = true → s.mem = t.mem) :
    SameOutcome insn s t (execute s addr insn) (execute t addr insn) := by
  have hreg : ∀ r, .gpr r ∈ insn.uses → s.reg r = t.reg r := fun r hr => huses _ hr
  cases insn with
  | nop | sync => exact sameOutcome_of_defs_nil rfl rfl s t
  | shift op rd rt amount =>
    exact sameOutcome_setReg rfl rfl (by rw [hreg rt (by simp [Instr.uses])])
  | alu op rd rs rt =>
    have hrs := hreg rs (by simp [Instr.uses])
    have hrt := hreg rt (by simp [Instr.uses])
    refine sameOutcome_ite (by rw [hrs, hrt]) (sameOutcome_setReg rfl rfl ?_)
    rw [hrs, hrt]
    -- Only the conditional moves look at the old value of their destination.
    cases op
    case moveIfZero | moveIfNotZero => rw [hreg rd (by simp [Instr.uses, AluOp.readsDestination])]
    all_goals rfl
  | mulDiv op rs rt =>
    refine ⟨fun ref href => ?_, rfl⟩
    have hmem := (mem_defs href).1
    have hrs := hreg rs (by simp [Instr.uses])
    have hrt := hreg rt (by simp [Instr.uses])
    simp only [Instr.defs, List.mem_cons, List.not_mem_nil, or_false] at hmem
    rcases hmem with rfl | rfl
    · exact congrArg Prod.fst (by rw [hrs, hrt])
    · exact congrArg Prod.snd (by rw [hrs, hrt])
  | hiLoMove move r =>
    cases move with
    | fromHi => exact sameOutcome_setReg rfl rfl (huses (.hiLo .hi) (by simp [Instr.uses]))
    | fromLo => exact sameOutcome_setReg rfl rfl (huses (.hiLo .lo) (by simp [Instr.uses]))
    | toHi | toLo => exact sameOutcome_of_defs rfl rfl fun _ => hreg r (by simp [Instr.uses])
  | unary op rd src => exact sameOutcome_setReg rfl rfl (by rw [hreg src (by simp [Instr.uses])])
  | imm op rt rs value =>
    have hrs := hreg rs (by simp [Instr.uses])
    exact sameOutcome_ite (by rw [hrs]) (sameOutcome_setReg rfl rfl (by rw [hrs]))
  | loadUpper rt value => exact sameOutcome_setReg rfl rfl rfl
  | load op rt base offset =>
    refine sameOutcome_setReg rfl rfl ?_
    rw [State.effectiveAddr_congr (hreg base (by simp [Instr.uses])),
      State.loadValue_congr (hmem rfl)]
  | store op rt base offset =>
    refine sameOutcome_of_defs_nil rfl ?_ _ _
    simp only [State.write?, State.effectiveAddr_congr (hreg base (by simp [Instr.uses])),
      hreg rt (by simp [Instr.uses])]
  | fpAlu op fmt fd fs ft =>
    exact sameOutcome_fpAlu (huses _ (by simp [Instr.uses])) (huses _ (by simp [Instr.uses]))
  | fpUnary op fd fs =>
    have hne : ∀ fmt, op ≠ .convert fmt fmt := fun fmt heq => hconvert fmt fd fs (by rw [heq])
    exact sameOutcome_fpUnary hne (huses _ (by simp [Instr.uses]))
  | fpCompare cond fmt cc fs ft =>
    have hfs := (huses (.fpr fs fmt) (by simp [Instr.uses])).fpValue
    have hft := (huses (.fpr ft fmt) (by simp [Instr.uses])).fpValue
    have hfccr : s.fcrBits .fccr = t.fcrBits .fccr := huses (.fcr .fccr) (by simp [Instr.uses])
    exact sameOutcome_setFcr rfl rfl (by rw [hfs, hft, hfccr])
  | fpLoad fmt ft base offset =>
    have haddr := State.effectiveAddr_congr (hreg base (by simp [Instr.uses])) offset
    cases fmt
    · exact sameOutcome_setFprBits rfl rfl (by rw [haddr, hmem rfl])
    · exact sameOutcome_setPairBits rfl rfl (by rw [haddr, hmem rfl])
  | fpStore fmt ft base offset =>
    have haddr := State.effectiveAddr_congr (hreg base (by simp [Instr.uses])) offset
    have hft := huses (.fpr ft fmt) (by simp [Instr.uses])
    cases fmt with
    | single =>
      have hword : s.fprBits ft = t.fprBits ft := hft
      exact sameOutcome_of_defs_nil rfl (by simp only [State.write?, haddr, hword]) _ _
    | double =>
      exact sameOutcome_of_defs_nil rfl (by simp only [State.write?, haddr, hft.pairBits]) _ _
  | moveFromFpu rt fs =>
    exact sameOutcome_setReg rfl rfl (huses (.fpr fs .single) (by simp [Instr.uses]))
  | moveToFpu rt fs => exact sameOutcome_setFprBits rfl rfl (hreg rt (by simp [Instr.uses]))
  | moveFromFcr rt c => exact sameOutcome_setReg rfl rfl (huses (.fcr c) (by simp [Instr.uses]))
  | moveToFcr rt c => exact sameOutcome_setFcr rfl rfl (hreg rt (by simp [Instr.uses]))
  | trap cond rs rt =>
    have hrs := hreg rs (by simp [Instr.uses])
    have hrt := hreg rt (by simp [Instr.uses])
    exact sameOutcome_ite (by rw [hrs, hrt]) (sameOutcome_of_defs_nil rfl rfl s t)
  | syscall | breakpoint | unknown => rfl
  | branch | branchZero | branchZeroLink | branchFp | jump | jumpLink | jumpReg | jumpLinkReg =>
    cases hflow

/-- The registers that an instruction is said to use and to define are all that it reads and writes.
It leaves alone every other word of the register files, the program counter, the count of
instructions and, unless it is a store, memory. From any two states that hold the same in what it
uses, and for a load in memory, it faults in the same way or gives the same to what it defines, and a
store writes the same bits to the same place. -/
theorem execute_depends_on_uses (word addr : UInt32) (hflow : (decode word).hasDelaySlot = false) :
    (∀ s s', execute s addr (decode word) = .ok s' → Framed (decode word) s s') ∧
    ∀ s t : State, (∀ ref ∈ (decode word).uses, s.SameAt t ref) →
      ((decode word).isLoad = true → s.mem = t.mem) →
      SameOutcome (decode word) s t (execute s addr (decode word)) (execute t addr (decode word)) :=
  ⟨fun _ _ => framed_execute, fun _ _ => sameOutcome_execute addr hflow (decode_ne_convert word)⟩

/-- A state in which `movz $10, $8, $9` moves nothing. -/
def unmoved : State :=
  ((State.initial (.zeroed 4 (by decide)) 0).setReg (.ofNat 9) 1).setReg (.ofNat 10) 7

/-- Another one, with the same in the registers of that instruction alone. -/
def unmovedElsewhere : State :=
  { unmoved.setReg (.ofNat 11) 3 with pc := 8, hi := 5, icnt := 9, mem := .zeroed 5 (by decide) }

/-- `movz $10, $8, $9` reads the register that it may leave as it is. -/
theorem execute_depends_on_uses_conditional_move :
    (decode 0x0109500a).hasDelaySlot = false ∧
      Framed (decode 0x0109500a) unmoved (unmoved.setReg (.ofNat 10) 7) ∧
      SameOutcome (decode 0x0109500a) unmoved unmovedElsewhere
        (execute unmoved 0x100 (decode 0x0109500a))
        (execute unmovedElsewhere 0x100 (decode 0x0109500a)) := by
  have hflow : (decode 0x0109500a).hasDelaySlot = false := by decide
  obtain ⟨hframed, hsame⟩ := execute_depends_on_uses 0x0109500a 0x100 hflow
  refine ⟨hflow, hframed _ _ rfl, hsame _ _ (fun ref href => ?_) fun h => absurd h (by decide)⟩
  have href : ref ∈ [RegRef.gpr (.ofNat 8), .gpr (.ofNat 9), .gpr (.ofNat 10)] := href
  simp only [List.mem_cons, List.not_mem_nil, or_false] at href
  rcases href with rfl | rfl | rfl <;> rfl

end HotRegion.Machine
