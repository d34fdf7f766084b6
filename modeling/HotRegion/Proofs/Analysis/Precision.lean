import HotRegion.Compile.Prepared
import HotRegion.Proofs.Machine.Units
import HotRegion.Proofs.Region.Ready

/-!
# Widths of floating-point registers

The usage of a region says of each floating-point register at which widths its code touches it. A
double access touches both registers of its pair.

## Key results

- `Region.has_computeFpUsage`: the usage is that of the instructions that run
- `Region.checkPrecision_eq_ok`: when mixed precision is refused
-/

namespace HotRegion

open Isa

namespace Analysis

/-- The access touches the register at a width. -/
def Touches (r : Fpr) (fmt : FpFormat) : RegRef → Prop
  | .fpr q .single => fmt = .single ∧ r = q
  | .fpr q .double => fmt = .double ∧ (r = q.base ∨ r = q.base.partner)
  | _ => False

namespace FpUsage

/-- The register is used at a width. -/
def has : FpUsage → FpFormat → Bool
  | both, _ | single, .single | double, .double => true
  | _, _ => false

@[simp] theorem has_join (a b : FpUsage) (fmt : FpFormat) :
    (a.join b).has fmt = (a.has fmt || b.has fmt) := by
  cases a <;> cases b <;> cases fmt <;> rfl

@[simp] theorem has_single (fmt : FpFormat) : single.has fmt = true ↔ fmt = .single := by
  cases fmt <;> simp [has]

@[simp] theorem has_double (fmt : FpFormat) : double.has fmt = true ↔ fmt = .double := by
  cases fmt <;> simp [has]

/-- A usage is both if it has both formats. -/
theorem eq_both_iff (u : FpUsage) : u = both ↔ u.has .single = true ∧ u.has .double = true := by
  cases u <;> simp [has]

end FpUsage

namespace FpTouched

variable {t t' : FpTouched} {r q : Fpr} {fmt : FpFormat}

/-- Joining one entry adds its formats to one register. -/
theorem has_joinAt (t : FpTouched) (q r : Fpr) (u : FpUsage) :
    ((t.joinAt q u).get r).has fmt = true ↔
      (t.get r).has fmt = true ∨ r = q ∧ u.has fmt = true := by
  have hget : (t.joinAt q u).get r = if r = q then (t.get q).join u else t.get r := by
    have hnum : r.num = q.num ↔ r = q := by
      obtain ⟨i⟩ := q
      obtain ⟨j⟩ := r
      simp
    refine (get_set t.usage q.num r.num _).trans ?_
    simp only [hnum]
    rfl
  rw [hget]
  by_cases h : r = q
  · simp [h]
  · simp [h]

/-- Merging joins the entries of a register. -/
theorem get_merge (t t' : FpTouched) (r : Fpr) :
    (t.merge t').get r = (t.get r).join (t'.get r) := by
  exact Vector.getElem_zipWith _

/-- Nothing is used at first. -/
theorem get_none (r : Fpr) : FpTouched.none.get r = .unused := by
  exact Vector.getElem_replicate _

/-- An access adds its format to the registers that it touches. -/
theorem has_touch (t : FpTouched) (q : Fpr) (width : FpFormat) :
    ((t.touch q width).get r).has fmt = true ↔
      (t.get r).has fmt = true ∨ Touches r fmt (.fpr q width) := by
  cases width with
  | single => simp [touch, has_joinAt, Touches, and_comm]
  | double =>
    simp only [touch, has_joinAt, Touches, FpUsage.has_double]
    grind

/-- References add their formats to the registers that they touch. -/
theorem has_touchRefs (refs : List RegRef) (t : FpTouched) :
    ((t.touchRefs refs).get r).has fmt = true ↔
      (t.get r).has fmt = true ∨ ∃ ref ∈ refs, Touches r fmt ref := by
  unfold touchRefs
  induction refs generalizing t with
  | nil => simp
  | cons ref refs ih =>
    rw [List.foldl_cons, ih]
    cases ref with
    | fpr q width => simp [has_touch, or_assoc]
    | _ => simp [Touches]

/-- Nothing is mixed if no register has both formats. -/
theorem mixed_eq_none_iff : t.mixed = Option.none ↔
    ∀ r, ¬ ((t.get r).has .single = true ∧ (t.get r).has .double = true) := by
  simp only [mixed, List.find?_eq_none, beq_iff_eq, FpUsage.eq_both_iff]
  constructor
  · intro h r
    refine h r ?_
    simp [Fpr.all]
  · exact fun h r _ => h r

end FpTouched

end Analysis

namespace Region

open Analysis

variable {r : Region} {q : Fpr} {fmt : FpFormat} {config : Config}

/-- An instruction that some block runs touches the register at a width. -/
def UsesFpr (r : Region) (q : Fpr) (fmt : FpFormat) : Prop :=
  ∃ s b, r.block? s = some b ∧ ∃ insn ∈ b.body, ∃ ref ∈ insn.uses ++ insn.defs, Touches q fmt ref

/-- The usage of a block is that of the operands and results in its body. -/
theorem has_bodyFpTouched (b : Block) : (b.bodyFpTouched.get q).has fmt = true ↔
    ∃ insn ∈ b.body, ∃ ref ∈ insn.uses ++ insn.defs, Touches q fmt ref := by
  have hfold : ∀ (insns : List Instr) (t : FpTouched),
      ((insns.foldl (fun t insn => (t.touchRefs insn.uses).touchRefs insn.defs) t).get q).has fmt =
          true ↔ (t.get q).has fmt = true ∨
        ∃ insn ∈ insns, ∃ ref ∈ insn.uses ++ insn.defs, Touches q fmt ref := by
    intro insns
    induction insns with
    | nil => simp
    | cons insn insns ih =>
      intro t
      have happend : (t.touchRefs insn.uses).touchRefs insn.defs =
          t.touchRefs (insn.uses ++ insn.defs) := List.foldl_append.symm
      rw [List.foldl_cons, ih, happend, FpTouched.has_touchRefs, or_assoc]
      simp only [List.mem_cons, exists_eq_or_imp]
  unfold Block.bodyFpTouched
  rw [hfold, FpTouched.get_none]
  simp [FpUsage.has]

/-- The usage of a region is that of the instructions that its blocks run. -/
theorem has_computeFpUsage : (r.computeFpUsage.fpTouched.get q).has fmt = true ↔ r.UsesFpr q fmt := by
  have hfold : ∀ (l : List (Slot × Block)) (t : FpTouched),
      ((l.foldl (fun t p => t.merge p.2.fpTouched) t).get q).has fmt = true ↔
        (t.get q).has fmt = true ∨ ∃ p ∈ l, (p.2.fpTouched.get q).has fmt = true := by
    intro l
    induction l with
    | nil => simp
    | cons p l ih =>
      intro t
      rw [List.foldl_cons, ih, FpTouched.get_merge]
      simp [or_assoc]
  have hall : r.computeFpUsage.fpTouched =
      r.computeFpUsage.blocks.foldl (fun t p => t.merge p.2.fpTouched) FpTouched.none := rfl
  rw [hall, hfold, FpTouched.get_none]
  simp only [FpUsage.has, Bool.false_eq_true, false_or, Prod.exists, mem_blocks,
    block?_computeFpUsage, Option.map_eq_some_iff]
  constructor
  · rintro ⟨s, _, ⟨b, hb, rfl⟩, h⟩
    exact ⟨s, b, hb, (has_bodyFpTouched b).1 h⟩
  · rintro ⟨s, b, hb, h⟩
    exact ⟨s, _, ⟨b, hb, rfl⟩, (has_bodyFpTouched b).2 h⟩

/-- Dominators have nothing to do with the widths of registers. -/
theorem usesFpr_computeDominators : r.computeDominators.UsesFpr q fmt ↔ r.UsesFpr q fmt := by
  simp only [UsesFpr, block?_computeDominators, Option.map_eq_some_iff]
  constructor
  · rintro ⟨s, _, ⟨b, hb, rfl⟩, h⟩
    exact ⟨s, b, hb, h⟩
  · rintro ⟨s, b, hb, h⟩
    exact ⟨s, _, ⟨b, hb, rfl⟩, h⟩

/-- Mixed precision is refused if it is not allowed and a register is used at both widths. -/
theorem checkPrecision_eq_ok :
    r.computeDominators.computeFpUsage.checkPrecision config = .ok () ↔
      (config.allowMixedPrecision = false → ∀ q, ¬ (r.UsesFpr q .single ∧ r.UsesFpr q .double)) := by
  have hmixed : r.computeDominators.computeFpUsage.fpTouched.mixed = none ↔
      ∀ q, ¬ (r.UsesFpr q .single ∧ r.UsesFpr q .double) := by
    simp only [FpTouched.mixed_eq_none_iff, has_computeFpUsage, usesFpr_computeDominators]
  unfold checkPrecision
  cases config.allowMixedPrecision with
  | true => simp
  | false =>
    simp only [Bool.false_eq_true, if_false, forall_const, ← hmixed]
    cases r.computeDominators.computeFpUsage.fpTouched.mixed <;> simp

end Region

end HotRegion
