import HotRegion.Proofs.Region.Links
import HotRegion.Region.Usage

/-!
# Register usage

Guest state comes in units, the words of the register files and the instruction count. A unit is
kept in the value of its home: itself, or the even register of a pair that is kept as a double. The
usage of a region lists the home of every unit that its code reads or writes.

## Key results

- `Tracked.home_mem_ofRef`: an access touches the homes of its units
- `Usage.describes_collect`: the usage that is collected describes the code of the region
-/

namespace HotRegion.Isa

/-! ## Pairs of registers -/

namespace Fpr

@[simp] theorem base_base (r : Fpr) : r.base.base = r.base := by
  obtain ⟨n⟩ := r
  revert n
  decide

@[simp] theorem base_partner (r : Fpr) : r.base.partner.base = r.base := by
  obtain ⟨n⟩ := r
  revert n
  decide

/-- The partner of an even register is odd. -/
theorem partner_ne_base (r : Fpr) : r.base.partner ≠ r.base := by
  obtain ⟨n⟩ := r
  revert n
  decide

/-- A register is one of the two of its pair. -/
theorem eq_base_or_partner (r : Fpr) : r = r.base ∨ r = r.base.partner := by
  obtain ⟨n⟩ := r
  revert n
  decide

/-- The base of a pair is its even register. -/
theorem isEven_base (r : Fpr) : r.base.isEven = true := by
  obtain ⟨n⟩ := r
  revert n
  decide

/-- The partner of an even register is odd, and the other way round. -/
theorem isEven_partner (r : Fpr) : r.partner.isEven = !r.isEven := by
  obtain ⟨n⟩ := r
  revert n
  decide

/-- Both registers of a pair have one base. -/
theorem partner_base (r : Fpr) : r.partner.base = r.base := by
  obtain ⟨n⟩ := r
  revert n
  decide

/-- The partner of the partner is the register itself. -/
theorem partner_partner (r : Fpr) : r.partner.partner = r := by
  obtain ⟨n⟩ := r
  revert n
  decide

/-- No register is its own partner. -/
theorem partner_ne (r : Fpr) : r.partner ≠ r := by
  obtain ⟨n⟩ := r
  revert n
  decide

/-- A pair has no third register. -/
theorem eq_or_eq_partner {r r' : Fpr} (h : r'.base = r.base) : r' = r ∨ r' = r.partner := by
  have h' := eq_base_or_partner r'
  rw [h] at h'
  rcases eq_base_or_partner r with hr | hr
  · have hpartner : r.partner = r.base.partner := congrArg partner hr
    rcases h' with h' | h'
    · exact .inl (h'.trans hr.symm)
    · exact .inr (h'.trans hpartner.symm)
  · have hpartner : r.partner = r.base := (congrArg partner hr).trans (partner_partner _)
    rcases h' with h' | h'
    · exact .inr (h'.trans hpartner.symm)
    · exact .inl (h'.trans hr.symm)

end Fpr

end HotRegion.Isa

namespace HotRegion.Analysis.FpTouched

open Isa

/-- Only the odd half of a double is covered. -/
theorem form_covered_iff (fp : FpTouched) (r : Fpr) :
    fp.form r = .covered ↔ fp.form r.base = .double ∧ r ≠ r.base := by
  unfold form
  simp only [Fpr.base_base]
  by_cases hpair : fp.get r.base = .double ∧ fp.get r.base.partner = .double
  · by_cases hr : r = r.base
    · simp only [if_pos hpair, if_pos hr, if_true]
      simp [← hr]
    · simp [hpair, hr]
  · simp only [if_neg hpair]
    split <;> split <;> simp

/-- Only the even register of a pair is tracked as a double. -/
theorem base_of_form_double (fp : FpTouched) {r : Fpr} (h : fp.form r = .double) : r.base = r := by
  unfold form at h
  split at h
  · split at h
    · rename_i hr
      exact hr.symm
    · cases h
  · split at h <;> cases h

/-- The even register of a pair is never covered by the other one. -/
theorem form_base_ne_covered (fp : FpTouched) (r : Fpr) : fp.form r.base ≠ .covered := by
  rw [Ne, form_covered_iff]
  simp

end HotRegion.Analysis.FpTouched

namespace HotRegion.Region

open Isa Analysis
open Ascending (Sorted)

variable {fp : FpTouched} {reg u : Tracked} {ref : RegRef} {s x : Slot}

namespace Tracked

/-- The key of a register tells it apart from all others. -/
theorem key_inj (x y : Tracked) (h : x.key = y.key) : x = y := by
  have hHiLo : ∀ a b : HiLo, a.index.val = b.index.val → a = b := by
    rintro ⟨⟩ ⟨⟩ <;> decide
  have hFcr : ∀ a b : Fcr, a.index.val = b.index.val → a = b := by
    rintro ⟨⟩ ⟨⟩ <;> decide
  -- Each kind of register has its own range of keys.
  cases x with
  | gpr a =>
    cases y with
    | gpr b => obtain ⟨a⟩ := a; obtain ⟨b⟩ := b; simp only [key] at h; congr; omega
    | _ => simp only [key] at h; omega
  | hiLo a =>
    cases y with
    | hiLo b => simp only [key] at h; congr; exact hHiLo a b (by omega)
    | _ => simp only [key] at h; omega
  | fpr a =>
    cases y with
    | fpr b => obtain ⟨a⟩ := a; obtain ⟨b⟩ := b; simp only [key] at h; congr; omega
    | _ => simp only [key] at h; omega
  | fcr a =>
    cases y with
    | fcr b => simp only [key] at h; congr; exact hFcr a b (by omega)
    | _ => simp only [key] at h; omega
  | icnt =>
    cases y with
    | icnt => rfl
    | _ => simp only [key] at h; omega

/-- The units of guest state that an access touches. -/
def units : RegRef → List Tracked
  | .gpr r => if r.isZero then [] else [gpr r]
  | .hiLo h => [hiLo h]
  | .fcr c => [fcr c]
  | .fpr r .single => [fpr r]
  | .fpr r .double => [fpr r.base, fpr r.base.partner]

/-- The register in whose value a unit of guest state is kept. -/
def home (fp : FpTouched) : Tracked → Tracked
  | fpr r => if fp.form r = .covered then fpr r.base else fpr r
  | u => u

/-- The units of guest state that are kept in the value of a register. -/
def parts (fp : FpTouched) : Tracked → List Tracked
  | fpr r => if fp.form r = .double then [fpr r.base, fpr r.base.partner] else [fpr r]
  | reg => [reg]

/-- A register keeps the units it is home to. -/
theorem mem_parts (h : reg.home fp = reg) : u ∈ parts fp reg ↔ u.home fp = reg := by
  cases reg with
  | fpr r =>
    -- A covered register is kept in its partner, so it is not its own home.
    have hnot : fp.form r ≠ .covered := by
      intro hc
      have hbase := (fp.form_covered_iff r).1 hc
      simp only [home, if_pos hc, fpr.injEq] at h
      exact hbase.2 h.symm
    cases u with
    | fpr r' =>
      simp only [parts, home]
      by_cases hd : fp.form r = .double
      · have hr := fp.base_of_form_double hd
        simp only [if_pos hd, List.mem_cons, List.not_mem_nil, or_false, fpr.injEq]
        constructor
        · rintro (rfl | rfl)
          · simp [hr]
          · rw [if_pos ((fp.form_covered_iff _).2 ⟨by rw [Fpr.base_partner, hr, hd],
              by rw [Fpr.base_partner]; exact Fpr.partner_ne_base r⟩), Fpr.base_partner, hr]
        · intro heq
          have hbase : r'.base = r.base := by
            split at heq
            · rw [fpr.inj heq, hr]
            · rw [fpr.inj heq]
          rw [← hbase]
          exact Fpr.eq_base_or_partner r'
      · simp only [if_neg hd, List.mem_singleton, fpr.injEq]
        constructor
        · rintro rfl
          simp [hnot]
        · intro heq
          split at heq
          · rename_i hc
            rw [← fpr.inj heq] at hd
            exact absurd ((fp.form_covered_iff r').1 hc).1 hd
          · exact fpr.inj heq
    | _ =>
      simp only [parts, home]
      split <;> simp
  | _ =>
    cases u with
    | fpr r' =>
      simp only [parts, home]
      split <;> simp
    | _ => simp [parts, home]

/-- An access touches the homes of its units. -/
theorem home_mem_ofRef (h : u ∈ units ref) : u.home fp ∈ ofRef fp ref := by
  cases ref with
  | gpr r =>
    simp only [units] at h
    split at h
    · exact absurd h List.not_mem_nil
    · rename_i hr
      rw [List.mem_singleton.1 h]
      simp [ofRef, hr, home]
  | hiLo | fcr =>
    rw [List.mem_singleton.1 h]
    simp [ofRef, home]
  | fpr r fmt =>
    cases fmt with
    | single =>
      rw [List.mem_singleton.1 h]
      simp only [ofRef, home]
      split <;> simp
    | double =>
      have hu : u = fpr r.base ∨ u = fpr r.base.partner := by simpa [units] using h
      rcases hu with rfl | rfl
      · simp only [home, if_neg (fp.form_base_ne_covered r), ofRef]
        split <;> simp
      · simp only [home, ofRef, FpTouched.form_covered_iff, Fpr.base_partner]
        by_cases hd : fp.form r.base = .double
        · simp [hd, Fpr.partner_ne_base]
        · simp [hd]

/-- The registers that an access touches are their own homes, and `$0` is none of them. -/
theorem home_of_mem_ofRef (h : reg ∈ ofRef fp ref) :
    reg.home fp = reg ∧ reg ≠ gpr .zero ∧ reg ≠ icnt := by
  cases ref with
  | gpr r =>
    simp only [ofRef] at h
    split at h
    · exact absurd h List.not_mem_nil
    · rename_i hr
      rw [List.mem_singleton.1 h]
      refine ⟨rfl, ?_, by simp⟩
      rintro heq
      cases heq
      exact hr rfl
  | hiLo | fcr =>
    rw [List.mem_singleton.1 h]
    exact ⟨rfl, by simp, by simp⟩
  | fpr r fmt =>
    -- What is left are floating-point registers: the homes are those that are not covered.
    have hfpr : ∀ r : Fpr, fp.form r ≠ .covered →
        (fpr r).home fp = fpr r ∧ fpr r ≠ gpr .zero ∧ fpr r ≠ icnt := fun r hr =>
      ⟨by simp [home, hr], by simp, by simp⟩
    cases fmt with
    | single =>
      simp only [ofRef] at h
      split at h
      · rw [List.mem_singleton.1 h]
        exact hfpr _ (fp.form_base_ne_covered r)
      · rename_i hr
        rw [List.mem_singleton.1 h]
        exact hfpr _ hr
    | double =>
      simp only [ofRef] at h
      split at h
      · rw [List.mem_singleton.1 h]
        exact hfpr _ (fp.form_base_ne_covered r)
      · rename_i hr
        have hu : reg = fpr r.base ∨ reg = fpr r.base.partner := by simpa using h
        rcases hu with rfl | rfl
        · exact hfpr _ (fp.form_base_ne_covered r)
        · refine hfpr _ fun hc => hr ?_
          rw [FpTouched.form_covered_iff, Fpr.base_partner] at hc
          exact hc.1

end Tracked

/-! ## Collecting the usage -/

namespace Usage

variable {u : Usage}

/-- The table of definitions is in order, and every register in it has a definition. -/
structure Ordered (u : Usage) : Prop where
  sorted : Sorted (fun p : Tracked × List Slot => p.1.key) u.defs
  ne_nil : ∀ p ∈ u.defs, p.2 ≠ []

/-- The blocks that are listed for a register are those that define it. -/
theorem Ordered.defBlocks_eq (h : u.Ordered) {defs : List Slot} (hmem : (reg, defs) ∈ u.defs) :
    u.defBlocks reg = defs := by
  rw [defBlocks, (Ascending.lookup_eq_some_iff h.sorted).2 hmem]
  rfl

/-- A register is written if some block defines it. -/
theorem Ordered.mem_written (h : u.Ordered) : reg ∈ u.written ↔ ∃ s, s ∈ u.defBlocks reg := by
  constructor
  · intro hreg
    obtain ⟨⟨reg', defs⟩, hmem, rfl⟩ := List.mem_map.1 hreg
    rw [h.defBlocks_eq hmem]
    exact List.exists_mem_of_ne_nil _ (h.ne_nil _ hmem)
  · rintro ⟨s, hs⟩
    unfold defBlocks at hs
    cases hlookup : u.defs.lookup reg with
    | none =>
      rw [hlookup] at hs
      exact absurd hs List.not_mem_nil
    | some defs =>
      exact List.mem_map.2 ⟨_, (Ascending.lookup_eq_some_iff h.sorted).1 hlookup, rfl⟩

/-- Noting a definition adds one block for one register. -/
theorem Ordered.addDef (h : u.Ordered) (reg : Tracked) (s : Slot) :
    (u.addDef reg s).Ordered ∧ (u.addDef reg s).reads = u.reads ∧
      ∀ x r, x ∈ (u.addDef reg s).defBlocks r ↔ x ∈ u.defBlocks r ∨ x = s ∧ r = reg := by
  refine ⟨⟨h.sorted.put _, fun p hp => ?_⟩, rfl, fun x r => ?_⟩
  · rcases (Ascending.mem_put h.sorted _ _).1 hp with rfl | ⟨hp, _⟩
    · exact List.ne_nil_of_mem ((Flow.mem_insert s s _).2 (.inl rfl))
    · exact h.ne_nil p hp
  · have hlookup : (u.addDef reg s).defs.lookup r =
        if r = reg then some (Flow.insert s (u.defBlocks reg)) else u.defs.lookup r :=
      Ascending.lookup_put Tracked.key_inj h.sorted reg _ r
    rw [defBlocks, hlookup]
    by_cases hr : r = reg
    · subst hr
      simp [Flow.mem_insert, or_comm]
    · simp [hr, defBlocks]

/-- The registers that an instruction reads. -/
def usesOf (fp : FpTouched) (insn : Instr) : List Tracked := insn.uses.flatMap (Tracked.ofRef fp)

/-- The registers that an instruction writes. -/
def defsOf (fp : FpTouched) (insn : Instr) : List Tracked :=
  insn.effectiveDefs.flatMap (Tracked.ofRef fp)

/-- What a block reads of registers that it has not defined is added to the reads. -/
private theorem foldl_addRead (l defined : List Tracked) (u : Usage) :
    let u' := l.foldl (fun u r => if defined.contains r then u else u.addRead r) u
    u'.defs = u.defs ∧ ∀ r, r ∈ u'.reads ↔ r ∈ u.reads ∨ r ∈ l ∧ r ∉ defined := by
  induction l generalizing u with
  | nil => simp
  | cons a l ih =>
    obtain ⟨hdefs, hreads⟩ := ih (if defined.contains a then u else u.addRead a)
    refine ⟨hdefs.trans (by split <;> rfl), fun r => ?_⟩
    rw [List.foldl_cons, hreads]
    by_cases ha : a ∈ defined
    · have hnot : ¬ (r = a ∧ r ∉ defined) := fun ⟨heq, hr⟩ => hr (heq ▸ ha)
      simp only [List.contains_iff_mem, ha, if_true, List.mem_cons, or_and_right, hnot, false_or]
    · have hsame : r = a ∧ r ∉ defined ↔ r = a := and_iff_left_of_imp fun heq => heq ▸ ha
      simp only [List.contains_iff_mem, ha, if_false, addRead, Tracked.insert,
        Ascending.mem_insert Tracked.key_inj, List.mem_cons, or_and_right, hsame]
      rw [or_assoc, or_left_comm]

/-- What a block defines is added to the definitions, and to the registers that it has defined. -/
private theorem foldl_addDef (l defined : List Tracked) (h : u.Ordered) (s : Slot) :
    let acc := l.foldl (fun (u, defined) r => (u.addDef r s, r :: defined)) (u, defined)
    acc.1.Ordered ∧ acc.1.reads = u.reads ∧
      (∀ x r, x ∈ acc.1.defBlocks r ↔ x ∈ u.defBlocks r ∨ x = s ∧ r ∈ l) ∧
      ∀ r, r ∈ acc.2 ↔ r ∈ defined ∨ r ∈ l := by
  induction l generalizing u defined with
  | nil => simp [h]
  | cons a l ih =>
    obtain ⟨h₁, hreads₁, hdefs₁⟩ := h.addDef a s
    obtain ⟨h', hreads, hdefs, hdefined⟩ := ih (a :: defined) h₁
    refine ⟨h', hreads.trans hreads₁, fun x r => ?_, fun r => ?_⟩
    · rw [List.foldl_cons, hdefs, hdefs₁, or_assoc, ← and_or_left, List.mem_cons]
    · rw [List.foldl_cons, hdefined, List.mem_cons, List.mem_cons, or_assoc, or_left_comm]

/-- What the instructions of one block add to the usage. -/
structure Grown (fp : FpTouched) (s : Slot) (insns : List Instr) (u u' : Usage) : Prop where
  ordered : u'.Ordered
  defs : ∀ x r, x ∈ u'.defBlocks r ↔ x ∈ u.defBlocks r ∨ x = s ∧ ∃ insn ∈ insns, r ∈ defsOf fp insn
  reads_sub : ∀ r ∈ u'.reads, r ∈ u.reads ∨ ∃ insn ∈ insns, r ∈ usesOf fp insn
  reads_mono : ∀ r ∈ u.reads, r ∈ u'.reads
  uses : ∀ insn ∈ insns, ∀ r ∈ usesOf fp insn, r ∈ u'.reads ∨ s ∈ u'.defBlocks r

/-- The body of a block adds what its instructions define, and what they read before that. -/
private theorem grown_foldl (insns : List Instr) (h : u.Ordered) (defined : List Tracked)
    (hdefined : ∀ r ∈ defined, s ∈ u.defBlocks r) :
    Grown fp s insns u (insns.foldl (addInstr fp s) (u, defined)).1 := by
  -- Induction on the instructions. `defined` is what the block has defined so far, which a later
  -- read does not add.
  induction insns generalizing u defined with
  | nil => exact ⟨h, by simp, by simp, by simp, by simp⟩
  | cons insn insns ih =>
    obtain ⟨hdefs₁, hreads₁⟩ := foldl_addRead (usesOf fp insn) defined u
    let u₁ := (usesOf fp insn).foldl (fun u r => if defined.contains r then u else u.addRead r) u
    have hblocks₁ : ∀ r, u₁.defBlocks r = u.defBlocks r := by
      intro r
      unfold defBlocks
      rw [hdefs₁]
    have h₁ : u₁.Ordered := ⟨by rw [hdefs₁]; exact h.sorted, by rw [hdefs₁]; exact h.ne_nil⟩
    obtain ⟨h₂, hreads₂, hdefs₂, hdefined₂⟩ := foldl_addDef (defsOf fp insn) defined h₁ s
    rw [List.foldl_cons]
    let acc := (defsOf fp insn).foldl (fun (u, defined) r => (u.addDef r s, r :: defined))
      (u₁, defined)
    have hacc : addInstr fp s (u, defined) insn = acc := rfl
    rw [hacc]
    have hgrown := ih h₂ acc.2 fun r hr => by
      rw [hdefs₂, hblocks₁]
      rcases (hdefined₂ r).1 hr with hr | hr
      · exact .inl (hdefined r hr)
      · exact .inr ⟨rfl, hr⟩
    have hreads : ∀ r, r ∈ acc.1.reads ↔ r ∈ u.reads ∨ r ∈ usesOf fp insn ∧ r ∉ defined := by
      intro r
      rw [show acc.1.reads = u₁.reads from hreads₂]
      exact hreads₁ r
    refine ⟨hgrown.ordered, fun x r => ?_, fun r hr => ?_, fun r hr => ?_, fun i hi r hr => ?_⟩
    · rw [hgrown.defs, hdefs₂, hblocks₁, or_assoc, ← and_or_left]
      simp only [List.mem_cons, exists_eq_or_imp]
    · rcases hgrown.reads_sub r hr with hr | ⟨i, hi, hr⟩
      · rcases (hreads r).1 hr with hr | ⟨hr, _⟩
        · exact .inl hr
        · exact .inr ⟨insn, List.mem_cons_self, hr⟩
      · exact .inr ⟨i, List.mem_cons_of_mem _ hi, hr⟩
    · exact hgrown.reads_mono r ((hreads r).2 (.inl hr))
    · rcases List.mem_cons.1 hi with rfl | hi
      · by_cases hd : r ∈ defined
        · right
          rw [hgrown.defs, hdefs₂, hblocks₁]
          exact .inl (.inl (hdefined r hd))
        · exact .inl (hgrown.reads_mono r ((hreads r).2 (.inr ⟨hr, hd⟩)))
      · exact hgrown.uses i hi r hr

/-- What the blocks of a region add to the usage, one after the other. -/
private structure Gathered (fp : FpTouched) (counting : Bool) (blocks : List (Slot × Block))
    (u : Usage) : Prop where
  ordered : u.Ordered
  defs : ∀ x r, x ∈ u.defBlocks r ↔ ∃ b, (x, b) ∈ blocks ∧
    ((∃ insn ∈ b.body, r ∈ defsOf fp insn) ∨
      counting = true ∧ 0 < b.instructionCount ∧ r = .icnt)
  reads_sub : ∀ r ∈ u.reads, ∃ p ∈ blocks, ∃ insn ∈ p.2.body, r ∈ usesOf fp insn
  uses : ∀ p ∈ blocks, ∀ insn ∈ p.2.body, ∀ r ∈ usesOf fp insn,
    r ∈ u.reads ∨ p.1 ∈ u.defBlocks r

/-- The blocks of a region add what their bodies and the count define and read. -/
private theorem gathered_foldl (fp : FpTouched) (counting : Bool) (l done : List (Slot × Block))
    (h : Gathered fp counting done u) :
    Gathered fp counting (done ++ l) (l.foldl (fun u (s, b) =>
      let u := (b.body.foldl (addInstr fp s) (u, [])).1
      if counting && 0 < b.instructionCount then u.addDef .icnt s else u) u) := by
  induction l generalizing u done with
  | nil => simpa using h
  | cons p l ih =>
    obtain ⟨s, b⟩ := p
    have hgrown : Grown fp s b.body u (b.body.foldl (addInstr fp s) (u, [])).1 :=
      grown_foldl b.body h.ordered [] (by simp)
    let u₁ := (b.body.foldl (addInstr fp s) (u, [])).1
    -- The block counts its instructions if it has some.
    have hcount : ∃ u₂, (if counting && 0 < b.instructionCount then u₁.addDef .icnt s else u₁) = u₂ ∧
        u₂.Ordered ∧ u₂.reads = u₁.reads ∧ ∀ x r, x ∈ u₂.defBlocks r ↔ x ∈ u₁.defBlocks r ∨
          x = s ∧ counting = true ∧ 0 < b.instructionCount ∧ r = .icnt := by
      by_cases hc : (counting && decide (0 < b.instructionCount)) = true
      · obtain ⟨h₂, hreads₂, hdefs₂⟩ := hgrown.ordered.addDef .icnt s
        rw [if_pos hc]
        refine ⟨_, rfl, h₂, hreads₂, fun x r => ?_⟩
        rw [hdefs₂]
        simp only [Bool.and_eq_true, decide_eq_true_eq] at hc
        simp [hc, u₁]
      · rw [if_neg hc]
        refine ⟨_, rfl, hgrown.ordered, rfl, fun x r => ?_⟩
        simp only [Bool.and_eq_true, decide_eq_true_eq] at hc
        simp only [← and_assoc, hc, and_false, false_and, or_false]
    obtain ⟨u₂, heq, h₂, hreads₂, hdefs₂⟩ := hcount
    have hstep : Gathered fp counting (done ++ [(s, b)]) u₂ := by
      refine ⟨h₂, fun x r => ?_, fun r hr => ?_, fun p hp insn hi r hr => ?_⟩
      · rw [hdefs₂, hgrown.defs, h.defs]
        simp only [List.mem_append, List.mem_singleton, Prod.mk.injEq, or_and_right, exists_or,
          and_assoc, exists_and_left, exists_eq_left]
        grind
      · rw [hreads₂] at hr
        rcases hgrown.reads_sub r hr with hr | ⟨insn, hi, hr⟩
        · obtain ⟨p, hp, rest⟩ := h.reads_sub r hr
          exact ⟨p, List.mem_append_left _ hp, rest⟩
        · exact ⟨(s, b), by simp, insn, hi, hr⟩
      · rw [hreads₂, hdefs₂]
        rcases List.mem_append.1 hp with hp | hp
        · rcases h.uses p hp insn hi r hr with hr | hr
          · exact .inl (hgrown.reads_mono r hr)
          · exact .inr (.inl ((hgrown.defs _ _).2 (.inl hr)))
        · rw [List.mem_singleton.1 hp] at hi ⊢
          rcases hgrown.uses insn hi r hr with hr | hr
          · exact .inl hr
          · exact .inr (.inl hr)
    have := ih _ hstep
    rw [List.append_assoc] at this
    rw [List.foldl_cons]
    simp only [u₁] at heq
    simp only [heq]
    exact this

/-- The usage lists what the code of a region does: which blocks define a register, and every
register that is read or written as one to know on entry. -/
structure Describes (u : Usage) (r : Region) (counting : Bool) : Prop where
  ordered : u.Ordered
  defs : ∀ x reg, x ∈ u.defBlocks reg ↔ ∃ b, r.block? x = some b ∧
    ((∃ insn ∈ b.body, reg ∈ defsOf r.fpTouched insn) ∨
      counting = true ∧ 0 < b.instructionCount ∧ reg = .icnt)
  uses : ∀ s b, r.block? s = some b → ∀ insn ∈ b.body, ∀ reg ∈ usesOf r.fpTouched insn,
    reg ∈ u.liveIn
  written : ∀ reg ∈ u.written, reg ∈ u.liveIn
  counted : counting = true → Tracked.icnt ∈ u.liveIn
  home : ∀ reg ∈ u.liveIn, reg.home r.fpTouched = reg ∧ reg ≠ .gpr .zero ∧
    (reg = .icnt → counting = true)

/-- The usage that is collected describes the region. -/
theorem describes_collect (r : Region) (counting : Bool) :
    (collect r counting).Describes r counting := by
  let u := collect r counting
  have hempty : Gathered r.fpTouched counting [] {} := by
    refine ⟨⟨by simp [Sorted], by simp⟩, by simp [defBlocks], by simp, by simp⟩
  have h := gathered_foldl r.fpTouched counting r.blocks [] hempty
  rw [List.nil_append] at h
  -- The blocks are gathered first; the count that is read in the end defines nothing.
  let u₀ := r.blocks.foldl (fun u (s, b) =>
      let u := (b.body.foldl (addInstr r.fpTouched s) (u, [])).1
      if counting && 0 < b.instructionCount then u.addDef .icnt s else u) {}
  have hu : u = if counting then u₀.addRead .icnt else u₀ := rfl
  have hdefs : u.defs = u₀.defs := by
    rw [hu]
    split <;> rfl
  have hreads : ∀ reg, reg ∈ u.reads ↔ reg ∈ u₀.reads ∨ counting = true ∧ reg = .icnt := by
    intro reg
    rw [hu]
    split
    · rename_i hc
      simp only [addRead, Tracked.insert, Ascending.mem_insert Tracked.key_inj, hc, true_and]
      exact or_comm
    · rename_i hc
      simp [hc]
  have hblocks : ∀ reg, u.defBlocks reg = u₀.defBlocks reg := by
    intro reg
    unfold defBlocks
    rw [hdefs]
  have hordered : u.Ordered :=
    ⟨by rw [hdefs]; exact h.ordered.sorted, by rw [hdefs]; exact h.ordered.ne_nil⟩
  have hmem : ∀ x reg, x ∈ u.defBlocks reg ↔ ∃ b, r.block? x = some b ∧
      ((∃ insn ∈ b.body, reg ∈ defsOf r.fpTouched insn) ∨
        counting = true ∧ 0 < b.instructionCount ∧ reg = .icnt) := by
    intro x reg
    rw [hblocks, h.defs]
    simp only [mem_blocks]
  have hlive : ∀ reg, reg ∈ u.liveIn ↔ reg ∈ u.reads ∨ reg ∈ u.written :=
    fun reg => Ascending.mem_union Tracked.key_inj reg _ _
  -- What comes from an operand is a home, and neither the zero register nor the count.
  have hofRef : ∀ (refs : List RegRef) reg, reg ∈ refs.flatMap (Tracked.ofRef r.fpTouched) →
      reg.home r.fpTouched = reg ∧ reg ≠ .gpr .zero ∧ (reg = .icnt → counting = true) := by
    intro refs reg hreg
    obtain ⟨ref, _, hreg⟩ := List.mem_flatMap.1 hreg
    obtain ⟨hhome, hzero, hicnt⟩ := Tracked.home_of_mem_ofRef hreg
    exact ⟨hhome, hzero, fun h => absurd h hicnt⟩
  refine ⟨hordered, hmem, fun s b hb insn hi reg hreg => ?_, fun reg hreg => ?_, fun hc => ?_,
    fun reg hreg => ?_⟩
  · rw [hlive, hreads, hordered.mem_written]
    rcases h.uses (s, b) (mem_blocks.2 hb) insn hi reg hreg with hr | hr
    · exact .inl (.inl hr)
    · exact .inr ⟨s, by rw [hblocks]; exact hr⟩
  · exact (hlive reg).2 (.inr hreg)
  · exact (hlive _).2 (.inl ((hreads _).2 (.inr ⟨hc, rfl⟩)))
  · rcases (hlive reg).1 hreg with hr | hr
    · rcases (hreads reg).1 hr with hr | ⟨hc, rfl⟩
      · obtain ⟨p, _, insn, _, hr⟩ := h.reads_sub reg hr
        exact hofRef _ _ hr
      · exact ⟨rfl, by simp, fun _ => hc⟩
    · obtain ⟨s, hs⟩ := hordered.mem_written.1 hr
      obtain ⟨b, _, ⟨insn, _, hr⟩ | ⟨hc, _, rfl⟩⟩ := (hmem s reg).1 hs
      · exact hofRef _ _ hr
      · exact ⟨rfl, by simp, fun _ => hc⟩

end Usage

end HotRegion.Region
