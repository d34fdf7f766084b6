import HotRegion.Proofs.Analysis.Precision
import HotRegion.Proofs.Region.Usage

/-!
# Usage as a set of observations

An observation is one access of a floating-point register at a width. The usage that is recorded of a
list of observations says of each register at which widths it was touched and nothing else, so it is
a function of the set of the observations: their order and their repetitions leave no trace, and
usages that were recorded apart can be merged in any way.

## Key results

- `FpTouched.ext_has`: a usage is the widths of its registers
- `FpTouched.ofObservations_append`: recorded apart and merged
- `FpTouched.usage_unordered`: the usage of a set of observations, and what is read off it
-/

namespace HotRegion.Isa.Fpr

/-- The other register of an odd one is the base of their pair. -/
theorem partner_of_odd {r : Fpr} (h : r.isEven = false) : r.partner = r.base := by
  obtain ⟨n⟩ := r
  revert n
  decide

end HotRegion.Isa.Fpr

namespace HotRegion.Analysis

open Isa

/-- An access of a register at a width. -/
abbrev Observation := Fpr × FpFormat

variable {l l' : List Observation} {t t' : FpTouched} {r q : Fpr} {fmt : FpFormat}

/-! ## Widths -/

/-- A usage is the set of widths it has. -/
theorem FpUsage.ext_has {u v : FpUsage} (h : ∀ fmt, u.has fmt = v.has fmt) : u = v := by
  have hsingle := h .single
  have hdouble := h .double
  cases u <;> cases v <;> simp_all [has]

/-- Only doubles are seen if singles are not. -/
theorem FpUsage.eq_double_iff (u : FpUsage) :
    u = .double ↔ u.has .single = false ∧ u.has .double = true := by
  cases u <;> simp [has]

namespace FpTouched

/-- The usage is the widths of its registers. -/
theorem ext_has (h : ∀ r fmt, (t.get r).has fmt = (t'.get r).has fmt) : t = t' := by
  obtain ⟨usage⟩ := t
  obtain ⟨usage'⟩ := t'
  congr 1
  ext i hi
  exact FpUsage.ext_has (h ⟨⟨i, hi⟩⟩)

@[simp] theorem has_merge (t t' : FpTouched) (r : Fpr) (fmt : FpFormat) :
    ((t.merge t').get r).has fmt = ((t.get r).has fmt || (t'.get r).has fmt) := by
  rw [get_merge, FpUsage.has_join]

/-- Merging does not depend on the order. -/
theorem merge_comm (t t' : FpTouched) : t.merge t' = t'.merge t := by
  refine ext_has fun r fmt => ?_
  simp only [has_merge, Bool.or_comm]

/-- Merging does not depend on how it is grouped. -/
theorem merge_assoc (t t' t'' : FpTouched) :
    (t.merge t').merge t'' = t.merge (t'.merge t'') := by
  refine ext_has fun r fmt => ?_
  simp only [has_merge, Bool.or_assoc]

/-- Merging a usage with itself changes nothing. -/
theorem merge_self (t : FpTouched) : t.merge t = t := by
  refine ext_has fun r fmt => ?_
  simp only [has_merge, Bool.or_self]

/-! ## Observations -/

/-- The usage after the given observations, one after the other. -/
def ofObservations (l : List Observation) : FpTouched := l.foldl (fun t o => t.touch o.1 o.2) none

/-- The register was observed as a single. -/
def SeenSingle (l : List Observation) (r : Fpr) : Prop := (r, .single) ∈ l

/-- The pair of the register was observed as a double, named by either of its registers. -/
def SeenDouble (l : List Observation) (r : Fpr) : Prop :=
  (r.base, .double) ∈ l ∨ (r.base.partner, .double) ∈ l

instance (l : List Observation) (r : Fpr) : Decidable (SeenSingle l r) :=
  inferInstanceAs (Decidable (_ ∈ _))

instance (l : List Observation) (r : Fpr) : Decidable (SeenDouble l r) :=
  inferInstanceAs (Decidable (_ ∨ _))

/-- Two registers are of one pair if each is one of the pair of the other. -/
theorem base_eq_iff : q.base = r.base ↔ r = q.base ∨ r = q.base.partner := by
  constructor
  · intro h
    rw [h]
    exact Fpr.eq_base_or_partner r
  · rintro (rfl | rfl) <;> simp

/-- A format is seen if it was seen before or is among the observations. -/
theorem has_foldl_touch (l : List Observation) (t : FpTouched) :
    ((l.foldl (fun t o => t.touch o.1 o.2) t).get r).has fmt = true ↔
      (t.get r).has fmt = true ∨ ∃ o ∈ l, Touches r fmt (.fpr o.1 o.2) := by
  induction l generalizing t with
  | nil => simp
  | cons o l ih =>
    rw [List.foldl_cons, ih, has_touch]
    simp [or_assoc]

/-- What is recorded of a register is at which widths it was observed. -/
theorem has_ofObservations : ((ofObservations l).get r).has fmt = true ↔
    ∃ o ∈ l, Touches r fmt (.fpr o.1 o.2) := by
  rw [ofObservations, has_foldl_touch, get_none]
  simp [FpUsage.has]

/-- A single is seen if it is among the observations. -/
theorem has_single_ofObservations :
    ((ofObservations l).get r).has .single = true ↔ SeenSingle l r := by
  rw [has_ofObservations]
  constructor
  · rintro ⟨⟨q, _ | _⟩, hmem, htouch⟩
    · obtain ⟨-, rfl⟩ := htouch
      exact hmem
    · cases htouch.1
  · exact fun h => ⟨_, h, rfl, rfl⟩

/-- A double is seen if it is among the observations of the pair. -/
theorem has_double_ofObservations :
    ((ofObservations l).get r).has .double = true ↔ SeenDouble l r := by
  rw [has_ofObservations]
  constructor
  · rintro ⟨⟨q, _ | _⟩, hmem, htouch⟩
    · cases htouch.1
    · rcases base_eq_iff.1 (base_eq_iff.2 htouch.2).symm with rfl | rfl
      · exact .inl hmem
      · exact .inr hmem
  · rintro (h | h)
    · exact ⟨_, h, rfl, base_eq_iff.1 (Fpr.base_base r)⟩
    · exact ⟨_, h, rfl, base_eq_iff.1 (Fpr.base_partner r)⟩

/-- The same observations give the same usage. -/
theorem ofObservations_congr (h : ∀ o, o ∈ l ↔ o ∈ l') : ofObservations l = ofObservations l' := by
  refine ext_has fun r fmt => Bool.eq_iff_iff.2 ?_
  simp only [has_ofObservations, h]

/-- Observations can be recorded in two parts. -/
theorem ofObservations_append (l l' : List Observation) :
    ofObservations (l ++ l') = (ofObservations l).merge (ofObservations l') := by
  refine ext_has fun r fmt => Bool.eq_iff_iff.2 ?_
  rw [has_merge, Bool.or_eq_true]
  simp only [has_ofObservations, List.mem_append, or_and_right, exists_or]

/-! ## Forms -/

/-- Both registers of a pair see the doubles of the pair. -/
theorem seenDouble_congr (h : q.base = r.base) : SeenDouble l q ↔ SeenDouble l r := by
  simp only [SeenDouble, h]

/-- A register is used as a double alone if doubles are seen and singles are not. -/
theorem get_eq_double_iff :
    (ofObservations l).get r = .double ↔ SeenDouble l r ∧ ¬ SeenSingle l r := by
  rw [FpUsage.eq_double_iff, has_double_ofObservations, Bool.eq_false_iff, Ne,
    has_single_ofObservations, and_comm]

/-- A register is used both ways if both are seen. -/
theorem get_eq_both_iff :
    (ofObservations l).get r = .both ↔ SeenSingle l r ∧ SeenDouble l r := by
  rw [FpUsage.eq_both_iff, has_single_ofObservations, has_double_ofObservations]

/-- A pair is one double if both of its registers are used as doubles alone. -/
theorem form_base_eq_double_iff (t : FpTouched) (r : Fpr) :
    t.form r.base = .double ↔ t.get r.base = .double ∧ t.get r.base.partner = .double := by
  unfold form
  simp only [Fpr.base_base, if_true]
  by_cases h : t.get r.base = .double ∧ t.get r.base.partner = .double
  · exact iff_of_true (if_pos h) h
  · refine iff_of_false (fun hform => ?_) h
    rw [if_neg h] at hform
    split at hform <;> cases hform

/-- A pair is kept as a double if it was observed as one and neither half as a single. -/
theorem form_base_ofObservations : (ofObservations l).form r.base = .double ↔
    SeenDouble l r ∧ ¬ SeenSingle l r.base ∧ ¬ SeenSingle l r.base.partner := by
  rw [form_base_eq_double_iff, get_eq_double_iff, get_eq_double_iff,
    seenDouble_congr (Fpr.base_base r), seenDouble_congr (Fpr.base_partner r)]
  tauto

/-- An odd register has no value of its own just if its pair is kept as a double. -/
theorem form_eq_covered_iff (t : FpTouched) (hodd : r.isEven = false) :
    t.form r = .covered ↔ t.form r.base = .double := by
  have hne : r ≠ r.base := by
    rw [← Fpr.partner_of_odd hodd]
    exact (Fpr.partner_ne r).symm
  rw [form_covered_iff, and_iff_left hne]

/-- The register that is reported as mixed is the lowest one used at both widths. -/
theorem mixed_eq_some_iff : t.mixed = some r ↔
    t.get r = .both ∧ ∀ q, t.get q = .both → r.num ≤ q.num := by
  have hlength : Fpr.all.length = 32 := by simp [Fpr.all]
  have hget : ∀ (i : Nat) (h : i < Fpr.all.length), Fpr.all[i] = ⟨⟨i, hlength ▸ h⟩⟩ := by
    intro i h
    simp [Fpr.all]
  rw [mixed, List.find?_eq_some_iff_getElem, beq_iff_eq]
  refine and_congr_right fun _ => ⟨?_, fun hleast => ?_⟩
  · rintro ⟨i, hi, rfl, hfirst⟩ q hq
    rw [hget, Fin.le_def]
    by_contra hlt
    have hbefore := hfirst q.num.val (Nat.lt_of_not_le hlt)
    rw [hget] at hbefore
    simp [hq] at hbefore
  · refine ⟨r.num.val, by rw [hlength]; exact r.num_lt, hget _ _, fun j hj => ?_⟩
    have hother : t.get Fpr.all[j] ≠ .both := by
      intro hboth
      have hle := hleast _ hboth
      rw [hget, Fin.le_def] at hle
      exact absurd hj (Nat.not_lt.2 hle)
    simpa using hother

/-- The usage that is recorded of a list of observations is that of their set.

Lists with the same observations, in any order and with any repetitions, give the same usage. The
usage of a list is the merge of the usages of its parts, and merging is commutative, associative and
idempotent. An odd register is covered just if its even partner is kept as a double, and that is so
just if the pair was observed as a double and neither half as a single. The register reported as mixed
is the lowest one that was observed as a single and whose pair was observed as a double, and none is
reported just if there is no such register. -/
theorem usage_unordered (l l' : List Observation) :
    ((∀ o, o ∈ l ↔ o ∈ l') → ofObservations l = ofObservations l') ∧
    ofObservations (l ++ l') = (ofObservations l).merge (ofObservations l') ∧
    (∀ t t' t'' : FpTouched, t.merge t' = t'.merge t ∧
      (t.merge t').merge t'' = t.merge (t'.merge t'') ∧ t.merge t = t) ∧
    (∀ r : Fpr, r.isEven = false →
      ((ofObservations l).form r = .covered ↔ (ofObservations l).form r.partner = .double) ∧
      ((ofObservations l).form r.partner = .double ↔
        SeenDouble l r ∧ ¬ SeenSingle l r ∧ ¬ SeenSingle l r.partner)) ∧
    (∀ r : Fpr, (ofObservations l).mixed = some r ↔ SeenSingle l r ∧ SeenDouble l r ∧
      ∀ q, SeenSingle l q → SeenDouble l q → r.num ≤ q.num) ∧
    ((ofObservations l).mixed = Option.none ↔ ∀ r, ¬ (SeenSingle l r ∧ SeenDouble l r)) := by
  refine ⟨ofObservations_congr, ofObservations_append l l', fun t t' t'' =>
    ⟨merge_comm t t', merge_assoc t t' t'', merge_self t⟩, fun r hodd => ?_, fun r => ?_, ?_⟩
  · have hpartner := Fpr.partner_of_odd hodd
    have hupper : r.base.partner = r := hpartner ▸ Fpr.partner_partner r
    rw [hpartner, form_eq_covered_iff _ hodd, form_base_ofObservations, hupper]
    exact ⟨Iff.rfl, and_congr_right fun _ => and_comm⟩
  · rw [mixed_eq_some_iff]
    simp only [get_eq_both_iff, and_imp, and_assoc]
  · rw [mixed_eq_none_iff]
    simp only [has_single_ofObservations, has_double_ofObservations]

/-- Doubles named by their odd registers, and one half of the first as a single. -/
def halvedPair : List Observation := [(.ofNat 5, .double), (.ofNat 4, .single), (.ofNat 9, .double)]

/-- The half comes before its pair, and once more after it: the pair is reported as mixed and the
other one is kept as a double all the same. -/
theorem usage_unordered_halvedPair :
    (∀ o, o ∈ halvedPair ↔ o ∈ (.ofNat 4, .single) :: halvedPair.reverse) ∧
    ofObservations halvedPair = ofObservations ((.ofNat 4, .single) :: halvedPair.reverse) ∧
    (ofObservations halvedPair).mixed = some (.ofNat 4) ∧
    (ofObservations halvedPair).form (.ofNat 9) = .covered := by
  obtain ⟨hsame, -, -, hform, hmixed, -⟩ :=
    usage_unordered halvedPair ((.ofNat 4, .single) :: halvedPair.reverse)
  have hset : ∀ o, o ∈ halvedPair ↔ o ∈ (.ofNat 4, .single) :: halvedPair.reverse := by
    intro o
    have hmem : (Fpr.ofNat 4, FpFormat.single) ∈ halvedPair := by decide
    simp only [List.mem_cons, List.mem_reverse, iff_or_self]
    rintro rfl
    exact hmem
  refine ⟨hset, hsame hset, (hmixed _).2 ⟨by decide, by decide, fun q hq _ => ?_⟩, ?_⟩
  · have hq : q = .ofNat 4 := by simpa [SeenSingle, halvedPair] using hq
    exact hq ▸ Nat.le_refl _
  · obtain ⟨hcovered, hdouble⟩ := hform (.ofNat 9) (by decide)
    exact hcovered.2 (hdouble.2 (by decide))

end FpTouched

end HotRegion.Analysis
