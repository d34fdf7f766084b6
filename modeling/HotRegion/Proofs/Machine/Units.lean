import HotRegion.Machine.Execute
import HotRegion.Proofs.Region.Usage
import HotRegion.Proofs.Ssa.Words

/-!
# Units of guest state

A guest state is made of its units, the program counter and memory. Each operation on a state
changes the units it names and leaves the others alone, and so does each instruction.

## Key results

- `State.ext_units`: states with the same units, program counter and memory are equal
- `State.unit_writeLoc`: writing back a register sets the units it is home to
- `unit_execute`: an instruction changes only the units of the registers it defines
-/

namespace HotRegion

/-- Reading a vector where one entry was written. -/
theorem get_set {α : Type} {n : Nat} (v : Vector α n) (i j : Fin n) (x : α) :
    (v.set i.val x i.isLt).get j = if j = i then x else v.get j := by
  have hget : (v.set i.val x i.isLt).get j = (v.set i.val x i.isLt)[j.val] := rfl
  rw [hget, Vector.getElem_set]
  by_cases h : j = i
  · simp [h]
  · have hne : i.val ≠ j.val := fun heq => h (Fin.ext heq.symm)
    simp only [if_neg hne, if_neg h]
    rfl

end HotRegion

namespace HotRegion.Isa

/-- Registers are told apart by their numbers. -/
theorem Gpr.num_inj {r r' : Gpr} : r.num = r'.num ↔ r = r' := by
  cases r
  cases r'
  simp

/-- Only one register is always zero. -/
theorem Gpr.isZero_iff {r : Gpr} : r.isZero = true ↔ r = .zero :=
  ⟨fun h => Gpr.num_inj.1 (beq_iff_eq.1 h), fun h => h ▸ rfl⟩

/-- Any other register holds what is written to it. -/
theorem Gpr.isZero_eq_false {r : Gpr} (h : r ≠ .zero) : r.isZero = false :=
  Bool.eq_false_iff.2 (mt Gpr.isZero_iff.1 h)

/-- Floating-point registers are told apart by their numbers. -/
theorem Fpr.num_inj {f f' : Fpr} : f.num = f'.num ↔ f = f' := by
  cases f
  cases f'
  simp

/-- Control registers are told apart by their places. -/
theorem Fcr.index_inj {c c' : Fcr} : c.index = c'.index ↔ c = c' := by
  cases c <;> cases c' <;> decide

end HotRegion.Isa

namespace HotRegion.Machine

open Isa
open Region (Tracked)

namespace State

variable {g g' : State} {u : Tracked}

/-- The bits of a unit, zero-extended. -/
def unit (g : State) : Tracked → UInt64
  | .gpr r => (g.reg r).toUInt64
  | .hiLo h => (g.hiLo h).toUInt64
  | .fpr f => (g.fprBits f).toUInt64
  | .fcr c => (g.fcrBits c).toUInt64
  | .icnt => g.icnt

/-! ## Writes -/

/-- A write to a general register is read back, and one to the zero register is dropped. -/
theorem reg_setReg (g : State) (r r' : Gpr) (v : UInt32) :
    (g.setReg r v).reg r' = if r' = r ∧ r.isZero = false then v else g.reg r' := by
  unfold setReg reg
  by_cases hz : r.isZero = true
  · simp [hz]
  · simp only [hz, Bool.false_eq_true, if_false]
    rw [get_set]
    simp only [Gpr.num_inj]
    simp

/-- A write to a floating-point register is read back. -/
theorem fprBits_setFprBits (g : State) (f f' : Fpr) (v : UInt32) :
    (g.setFprBits f v).fprBits f' = if f' = f then v else g.fprBits f' := by
  unfold setFprBits fprBits
  rw [get_set]
  simp only [Fpr.num_inj]

/-- A write to a control register is read back. -/
theorem fcrBits_setFcr (g : State) (c c' : Fcr) (v : UInt32) :
    (g.setFcr c v).fcrBits c' = if c' = c then v else g.fcrBits c' := by
  unfold setFcr fcrBits
  rw [get_set]
  simp only [Fcr.index_inj]

/-- Writing a general register changes its unit alone. -/
theorem unit_setReg (g : State) (r : Gpr) (v : UInt32) (u : Tracked) :
    (g.setReg r v).unit u = if u = .gpr r ∧ r.isZero = false then v.toUInt64 else g.unit u := by
  cases u with
  | gpr r' =>
    simp only [unit, reg_setReg, Tracked.gpr.injEq]
    split <;> rfl
  | _ =>
    unfold setReg
    split <;> simp [unit, hiLo, fprBits, fcrBits]

/-- Writing `hi` or `lo` changes its unit alone. -/
theorem unit_setHiLo (g : State) (h : HiLo) (v : UInt32) (u : Tracked) :
    (g.setHiLo h v).unit u = if u = .hiLo h then v.toUInt64 else g.unit u := by
  cases u with
  | hiLo h' => cases h <;> cases h' <;> rfl
  | _ => cases h <;> rfl

/-- Writing a floating-point register changes its unit alone. -/
theorem unit_setFprBits (g : State) (f : Fpr) (v : UInt32) (u : Tracked) :
    (g.setFprBits f v).unit u = if u = .fpr f then v.toUInt64 else g.unit u := by
  cases u with
  | fpr f' =>
    simp only [unit, fprBits_setFprBits, Tracked.fpr.injEq]
    split <;> rfl
  | _ => simp [unit, setFprBits, reg, hiLo, fcrBits]

/-- Writing a control register changes its unit alone. -/
theorem unit_setFcr (g : State) (c : Fcr) (v : UInt32) (u : Tracked) :
    (g.setFcr c v).unit u = if u = .fcr c then v.toUInt64 else g.unit u := by
  cases u with
  | fcr c' =>
    simp only [unit, fcrBits_setFcr, Tracked.fcr.injEq]
    split <;> rfl
  | _ => simp [unit, setFcr, reg, hiLo, fprBits]

/-- Writing a pair changes the units of both registers. -/
theorem unit_setPairBits (g : State) (f : Fpr) (v : UInt64) (u : Tracked) :
    (g.setPairBits f v).unit u =
      if u = .fpr f.base.partner then (v >>> 32).toUInt32.toUInt64
      else if u = .fpr f.base then v.toUInt32.toUInt64 else g.unit u := by
  rw [setPairBits, unit_setFprBits, unit_setFprBits]

/-- Memory and the program counter are not units. -/
@[simp] theorem unit_mem (g : State) (mem : Memory) (u : Tracked) :
    ({ g with mem := mem } : State).unit u = g.unit u := by
  cases u <;> rfl

@[simp] theorem unit_pc (g : State) (pc : UInt32) (u : Tracked) :
    ({ g with pc := pc } : State).unit u = g.unit u := by
  cases u <;> rfl

/-- States with the same units, program counter and memory are equal. -/
theorem ext_units (hpc : g'.pc = g.pc) (hmem : g'.mem = g.mem) (h : ∀ u, g'.unit u = g.unit u) :
    g' = g := by
  have hword : ∀ {a b : UInt32}, a.toUInt64 = b.toUInt64 → a = b := Ssa.toUInt64_inj.1
  -- Each register file is given by its units.
  have hgpr : g'.gpr = g.gpr := by
    apply Vector.ext
    intro i hi
    exact hword (h (.gpr ⟨⟨i, hi⟩⟩))
  have hfpr : g'.fpr = g.fpr := by
    apply Vector.ext
    intro i hi
    exact hword (h (.fpr ⟨⟨i, hi⟩⟩))
  have hfcr : g'.fcr = g.fcr := by
    have hindex : ∀ i : Fin 5, ∃ c : Fcr, c.index = i := by
      intro i
      match i with
      | 0 => exact ⟨.fir, rfl⟩
      | 1 => exact ⟨.fcsr, rfl⟩
      | 2 => exact ⟨.fccr, rfl⟩
      | 3 => exact ⟨.fexr, rfl⟩
      | 4 => exact ⟨.fenr, rfl⟩
    apply Vector.ext
    intro i hi
    obtain ⟨c, hc⟩ := hindex ⟨i, hi⟩
    have hc' := hword (h (.fcr c))
    simp only [fcrBits, hc] at hc'
    exact hc'
  have hhi : g'.hi = g.hi := hword (h (.hiLo .hi))
  have hlo : g'.lo = g.lo := hword (h (.hiLo .lo))
  have hicnt : g'.icnt = g.icnt := h .icnt
  cases g
  cases g'
  simp only at hpc hmem hgpr hfpr hfcr hhi hlo hicnt
  subst hpc hmem hgpr hfpr hfcr hhi hlo hicnt
  rfl

/-! ## Data -/

/-- The bits of the datum in a register, read in a format. -/
def fpBits (g : State) (fmt : FpFormat) (f : Fpr) : UInt64 :=
  match fmt with
  | .single => (g.fprBits f).toUInt64
  | .double => g.pairBits f

/-- Replaces the datum in a register. -/
def setFpBits (g : State) (fmt : FpFormat) (f : Fpr) (v : UInt64) : State :=
  match fmt with
  | .single => g.setFprBits f v.toUInt32
  | .double => g.setPairBits f v

/-! ## Tracked registers -/

variable {fp : Analysis.FpTouched} {reg : Tracked}

/-- The bits of a tracked register: those of its unit, or of both units of a pair. -/
def kept (g : State) (fp : Analysis.FpTouched) : Tracked → UInt64
  | .fpr f => if fp.form f = .double then g.pairBits f else g.unit (.fpr f)
  | reg => g.unit reg

/-- What is kept of a register other than `$0` is the same in states that differ in `$0` alone. -/
theorem kept_congr (h : ∀ u, u ≠ .gpr .zero → g'.unit u = g.unit u) (hreg : reg ≠ .gpr .zero) :
    g'.kept fp reg = g.kept fp reg := by
  cases reg with
  | fpr f =>
    have hword : ∀ f, g'.fprBits f = g.fprBits f := fun f => Ssa.toUInt64_inj.1 (h (.fpr f) (by simp))
    simp only [kept, pairBits, hword, h (.fpr f) (by simp)]
  | _ => exact h _ hreg

/-! ## Entering a region -/

/-- The state of a guest that enters a region at `pc`: `$0` is zero there, whatever its word is. -/
def enter (s : State) (pc : UInt32) : State := { s with pc := pc, gpr := s.gpr.set 0 0 }

/-- Entering a program clears the zero register and no other. -/
theorem reg_enter (s : State) (pc : UInt32) (r : Gpr) :
    (s.enter pc).reg r = if r = .zero then 0 else s.reg r := by
  have hset := get_set s.gpr (Gpr.zero).num r.num 0
  simp only [Gpr.num_inj] at hset
  exact hset

/-- Entering a program changes no other unit. -/
theorem unit_enter (s : State) (pc : UInt32) {u : Tracked} (hu : u ≠ .gpr .zero) :
    (s.enter pc).unit u = s.unit u := by
  cases u with
  | gpr r =>
    simp only [unit, reg_enter]
    rw [if_neg fun h => hu (congrArg Tracked.gpr h)]
  | hiLo h => cases h <;> rfl
  | _ => rfl

/-- A state in which `$0` is zero is entered as it is. -/
theorem enter_of_zero {s : State} (h : s.reg .zero = 0) (pc : UInt32) :
    s.enter pc = { s with pc := pc } := by
  refine ext_units rfl rfl fun u => ?_
  by_cases hu : u = .gpr .zero
  · subst hu
    have hreg : (s.enter pc).reg .zero = s.reg .zero := by rw [reg_enter, if_pos rfl, h]
    exact congrArg UInt32.toUInt64 hreg
  · exact (unit_enter s pc hu).trans (unit_pc s pc u).symm

/-- The even register holds the low word of a pair. -/
theorem toUInt32_pairBits (g : State) (f : Fpr) :
    (g.pairBits f).toUInt32 = g.fprBits f.base := Ssa.toUInt32_join _ _

/-- The odd register holds the high word of a pair. -/
theorem high_pairBits (g : State) (f : Fpr) :
    (g.pairBits f >>> 32).toUInt32 = g.fprBits f.base.partner := Ssa.high_join _ _

/-- Every number of a register is one that the encoding has. -/
theorem gpr_ofNat : ∀ n : Fin 32, Gpr.ofNat (UInt8.ofNat n).toNat = ⟨n⟩ := by decide

/-- Every number of a floating-point register is one that the encoding has. -/
theorem fpr_ofNat : ∀ n : Fin 32, Fpr.ofNat (UInt8.ofNat n).toNat = ⟨n⟩ := by decide

/-- Where a tracked register lives, its bits are found. -/
theorem readLoc_loc (g : State) (fp : Analysis.FpTouched) (reg : Tracked) :
    g.readLoc (reg.loc fp) = g.kept fp reg := by
  cases reg with
  | gpr r => simp only [Tracked.loc, readLoc, kept, unit, gpr_ofNat]
  | hiLo h => cases h <;> rfl
  | fpr f =>
    simp only [Tracked.loc, kept]
    split <;> simp only [readLoc, unit, fpr_ofNat]
  | fcr c => cases c <;> rfl
  | icnt => rfl

/-- Writing back a register sets the units it is home to. -/
theorem unit_writeLoc (m g : State) (hhome : reg.home fp = reg) (hzero : reg ≠ .gpr .zero)
    (u : Tracked) :
    (m.writeLoc (reg.loc fp) (g.kept fp reg)).unit u =
      if u.home fp = reg then g.unit u else m.unit u := by
  -- Writing to a place changes the parts of the register there and nothing else.
  simp only [← Tracked.mem_parts hhome]
  cases reg with
  | gpr r =>
    have hr : r.isZero = false := Gpr.isZero_eq_false fun heq => hzero (congrArg _ heq)
    simp only [Tracked.loc, writeLoc, gpr_ofNat, unit_setReg, hr, and_true, Tracked.parts,
      List.mem_singleton, kept]
    split
    · rename_i hu
      simp [hu, unit]
    · rfl
  | hiLo h =>
    have hset : m.writeLoc ((Tracked.hiLo h).loc fp) (g.kept fp (.hiLo h)) =
        m.setHiLo h (g.hiLo h) := by
      cases h <;> simp [Tracked.loc, writeLoc, kept, unit, setHiLo]
    simp only [hset, unit_setHiLo, Tracked.parts, List.mem_singleton]
    split
    · rename_i hu
      simp [hu, unit]
    · rfl
  | fpr f =>
    simp only [Tracked.loc, kept, Tracked.parts]
    by_cases hd : fp.form f = .double
    · simp only [if_pos hd, writeLoc, fpr_ofNat, unit_setPairBits, toUInt32_pairBits, high_pairBits,
        List.mem_cons, List.not_mem_nil, or_false]
      by_cases hp : u = .fpr f.base.partner
      · rw [if_pos hp, if_pos (.inr hp), hp]
        rfl
      · by_cases hb : u = .fpr f.base
        · rw [if_neg hp, if_pos hb, if_pos (.inl hb), hb]
          rfl
        · simp [hp, hb]
    · simp only [if_neg hd, writeLoc, fpr_ofNat, unit_setFprBits, List.mem_singleton]
      split
      · rename_i hu
        simp [hu, unit]
      · rfl
  | fcr c =>
    have hset : m.writeLoc ((Tracked.fcr c).loc fp) (g.kept fp (.fcr c)) =
        m.setFcr c (g.fcrBits c) := by
      have hword : (g.kept fp (.fcr c)).toUInt32 = g.fcrBits c := by simp [kept, unit]
      cases c <;> simp only [Tracked.loc, writeLoc, setFcr, hword] <;> rfl
    simp only [hset, unit_setFcr, Tracked.parts, List.mem_singleton]
    split
    · rename_i hu
      simp [hu, unit]
    · rfl
  | icnt =>
    simp only [Tracked.loc, writeLoc, kept, Tracked.parts, List.mem_singleton]
    cases u <;> simp [unit, reg, hiLo, fprBits, fcrBits]

end State

/-! ## Instructions -/

variable {g g' : State} {addr : UInt32} {insn : Instr} {u : Tracked}

/-- The unit belongs to none of the registers that an instruction defines. -/
def Untouched (insn : Instr) (u : Tracked) : Prop := ∀ ref ∈ insn.effectiveDefs, u ∉ Tracked.units ref

/-- A general register that an instruction does not define. -/
theorem untouched_gpr {r : Gpr} (h : .gpr r ∉ insn.effectiveDefs) : Untouched insn (.gpr r) := by
  intro ref href hmem
  cases ref with
  | gpr r' =>
    simp only [Tracked.units] at hmem
    split at hmem
    · cases hmem
    · cases List.mem_singleton.1 hmem
      exact h href
  | fpr f fmt => cases fmt <;> simp [Tracked.units] at hmem
  | _ => simp [Tracked.units] at hmem

/-- No instruction writes to `$0`. -/
theorem untouched_zero (insn : Instr) : Untouched insn (.gpr .zero) :=
  untouched_gpr (by simp [Instr.effectiveDefs])

/-- No instruction defines the count of instructions. -/
theorem untouched_icnt (insn : Instr) : Untouched insn .icnt := by
  intro ref _ hmem
  cases ref with
  | gpr r =>
    simp only [Tracked.units] at hmem
    split at hmem <;> simp at hmem
  | fpr f fmt => cases fmt <;> simp [Tracked.units] at hmem
  | _ => simp [Tracked.units] at hmem

/-- Writing the only general register that an instruction defines leaves untouched units alone. -/
private theorem unit_setReg_of_untouched {r : Gpr} (v : UInt32) (hdefs : insn.defs = [.gpr r])
    (hu : Untouched insn u) : (g.setReg r v).unit u = g.unit u := by
  rw [State.unit_setReg]
  refine if_neg fun ⟨hgpr, hzero⟩ => ?_
  refine hu (.gpr r) ?_ (by simp [Tracked.units, hzero, hgpr])
  simp only [Instr.effectiveDefs, hdefs, List.mem_filter, List.mem_singleton, true_and, bne_iff_ne]
  rintro heq
  cases heq
  cases hzero

/-- What an instruction does not touch is no part of what it defines. -/
private theorem not_mem_units (ref : RegRef) (hmem : ref ∈ insn.defs) (hgpr : ∀ r, ref ≠ .gpr r)
    (hu : Untouched insn u) : u ∉ Tracked.units ref :=
  hu ref (List.mem_filter.2 ⟨hmem, by simpa using hgpr .zero⟩)

/-- Writing the only single that an instruction defines leaves untouched units alone. -/
private theorem unit_setFprBits_of_untouched {f : Fpr} (v : UInt32)
    (hdefs : insn.defs = [.fpr f .single]) (hu : Untouched insn u) :
    (g.setFprBits f v).unit u = g.unit u := by
  have hnot := not_mem_units (.fpr f .single) (by simp [hdefs]) (by simp) hu
  rw [State.unit_setFprBits, if_neg (by simpa [Tracked.units] using hnot)]

/-- Writing the only double that an instruction defines leaves untouched units alone. -/
private theorem unit_setPairBits_of_untouched {f : Fpr} (v : UInt64)
    (hdefs : insn.defs = [.fpr f .double]) (hu : Untouched insn u) :
    (g.setPairBits f v).unit u = g.unit u := by
  have hnot := not_mem_units (.fpr f .double) (by simp [hdefs]) (by simp) hu
  have hne : u ≠ .fpr f.base ∧ u ≠ .fpr f.base.partner := by simpa [Tracked.units] using hnot
  rw [State.unit_setPairBits, if_neg hne.2, if_neg hne.1]

/-- Writing `hi` or `lo` leaves untouched units alone. -/
private theorem unit_setHiLo_of_untouched {h : HiLo} (v : UInt32) (hdefs : .hiLo h ∈ insn.defs)
    (hu : Untouched insn u) : (g.setHiLo h v).unit u = g.unit u := by
  have hnot := not_mem_units (.hiLo h) hdefs (by simp) hu
  rw [State.unit_setHiLo, if_neg (by simpa [Tracked.units] using hnot)]

/-- Writing the only control register that an instruction defines leaves untouched units alone. -/
private theorem unit_setFcr_of_untouched {c : Fcr} (v : UInt32) (hdefs : insn.defs = [.fcr c])
    (hu : Untouched insn u) : (g.setFcr c v).unit u = g.unit u := by
  have hnot := not_mem_units (.fcr c) (by simp [hdefs]) (by simp) hu
  rw [State.unit_setFcr, if_neg (by simpa [Tracked.units] using hnot)]

/-- Operations on one floating-point register leave untouched units alone. -/
private theorem unit_fpUnary {op : FpUnaryOp} {fd fs : Fpr} (hu : Untouched (.fpUnary op fd fs) u) :
    (g.fpUnary op fd fs).unit u = g.unit u := by
  unfold State.fpUnary
  split
  all_goals first
    | exact unit_setFprBits_of_untouched _ rfl hu
    | exact unit_setPairBits_of_untouched _ rfl hu

/-- Arithmetic on floating-point registers leaves untouched units alone. -/
private theorem unit_fpAlu {op : FpAluOp} {fmt : FpFormat} {fd fs ft : Fpr}
    (hu : Untouched (.fpAlu op fmt fd fs ft) u) : (g.fpAlu op fmt fd fs ft).unit u = g.unit u := by
  cases fmt with
  | single => exact unit_setFprBits_of_untouched _ rfl hu
  | double => exact unit_setPairBits_of_untouched _ rfl hu

/-- An instruction changes only the units of the registers it defines. -/
theorem unit_execute (h : execute g addr insn = .ok g') (hu : Untouched insn u) :
    g'.unit u = g.unit u := by
  -- The unit is none of those that the instruction defines, and each case writes only there.
  cases insn with
  | shift | unary | loadUpper | load | moveFromFpu | moveFromFcr =>
    cases h
    exact unit_setReg_of_untouched _ rfl hu
  | alu | imm =>
    simp only [execute] at h
    split at h
    · cases h
    · cases h
      exact unit_setReg_of_untouched _ rfl hu
  | mulDiv op rs rt =>
    have hg : (g.setHiLo .hi (op.eval (g.reg rs) (g.reg rt)).1).setHiLo .lo
        (op.eval (g.reg rs) (g.reg rt)).2 = g' := Except.ok.inj h
    rw [← hg, unit_setHiLo_of_untouched (h := .lo) _ (by simp [Instr.defs]) hu,
      unit_setHiLo_of_untouched (h := .hi) _ (by simp [Instr.defs]) hu]
  | hiLoMove dir r =>
    cases dir <;> cases h
    · exact unit_setReg_of_untouched _ rfl hu
    · exact unit_setReg_of_untouched _ rfl hu
    · exact unit_setHiLo_of_untouched (h := .hi) _ (by simp [Instr.defs]) hu
    · exact unit_setHiLo_of_untouched (h := .lo) _ (by simp [Instr.defs]) hu
  | fpAlu =>
    cases h
    exact unit_fpAlu hu
  | fpUnary =>
    cases h
    exact unit_fpUnary hu
  | fpCompare =>
    cases h
    exact unit_setFcr_of_untouched _ rfl hu
  | fpLoad fmt =>
    cases fmt <;> cases h
    · exact unit_setFprBits_of_untouched _ rfl hu
    · exact unit_setPairBits_of_untouched _ rfl hu
  | fpStore fmt =>
    cases fmt <;> cases h <;> exact State.unit_mem _ _ _
  | store =>
    cases h
    exact State.unit_mem _ _ _
  | moveToFpu =>
    cases h
    exact unit_setFprBits_of_untouched _ rfl hu
  | moveToFcr =>
    cases h
    exact unit_setFcr_of_untouched _ rfl hu
  | trap =>
    simp only [execute] at h
    split at h <;> cases h
    rfl
  | syscall | breakpoint | unknown => cases h
  | nop | sync | branch | branchZero | branchZeroLink | branchFp | jump | jumpLink | jumpReg
  | jumpLinkReg =>
    cases h
    rfl

/-- An instruction leaves untouched general registers alone. -/
theorem reg_execute {r : Gpr} (h : execute g addr insn = .ok g') (hr : Untouched insn (.gpr r)) :
    g'.reg r = g.reg r :=
  UInt32.toUInt64_inj.1 (unit_execute h hr)

@[simp] theorem State.pc_setReg (g : State) (r : Gpr) (v : UInt32) : (g.setReg r v).pc = g.pc := by
  unfold State.setReg
  split <;> rfl

/-- Writing a register leaves memory alone. -/
theorem State.mem_setReg (g : State) (r : Gpr) (v : UInt32) : (g.setReg r v).mem = g.mem := by
  unfold State.setReg
  split <;> rfl

/-- An instruction leaves the program counter alone. -/
theorem pc_execute (h : execute g addr insn = .ok g') : g'.pc = g.pc := by
  cases insn with
  | alu | imm | trap =>
    simp only [execute] at h
    split at h <;> cases h
    all_goals first
      | rfl
      | exact State.pc_setReg _ _ _
  | hiLoMove dir =>
    cases dir <;> cases h
    all_goals first
      | rfl
      | exact State.pc_setReg _ _ _
  | fpAlu _ fmt => cases fmt <;> cases h <;> rfl
  | fpUnary op =>
    cases h
    unfold State.fpUnary
    split <;> rfl
  | fpLoad fmt | fpStore fmt => cases fmt <;> cases h <;> rfl
  | _ =>
    cases h
    all_goals first
      | rfl
      | exact State.pc_setReg _ _ _

end HotRegion.Machine
