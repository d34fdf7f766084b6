import HotRegion.Proofs.Analysis.Precision
import HotRegion.Proofs.Ssa.Watched

/-!
# Storage of tracked registers

A location of guest state stands for one or two of its units. Reading it depends on these alone, and
writing it gives them bits that depend on the written value alone, so locations without a common
unit can be read and written in any order.

The registers that a region keeps in values live at such locations: no two of them share a unit, and
each access of the code covers the units of the registers it touches. What makes this so is the
usage of the floating-point registers. A pair is kept as a double only if all code of the region
touches both of its registers as a double, so that a single access never meets half of one.

## Key results

- `Machine.Loc.unit_writeLoc_words`, `Machine.Loc.writeLoc_comm`: what locations stand for
- `words_loc`: the location of a register has the units that the register keeps
- `tracked_disjoint`: the registers that are live in do not overlap
-/

namespace HotRegion.Isa.Fcr

/-- The control register at a position of the dense file; positions beyond it wrap around. -/
def ofIndex (n : Nat) : Fcr :=
  match n % 5 with
  | 0 => fir
  | 1 => fcsr
  | 2 => fccr
  | 3 => fexr
  | _ => fenr

/-- Storage classes are told apart by their indices. -/
theorem index_ofIndex (n : Nat) : (ofIndex n).index.val = n % 5 := by
  have hlt : n % 5 = 0 ∨ n % 5 = 1 ∨ n % 5 = 2 ∨ n % 5 = 3 ∨ n % 5 = 4 := by omega
  unfold ofIndex
  rcases hlt with h | h | h | h | h <;> rw [h] <;> rfl

end HotRegion.Isa.Fcr

namespace HotRegion.Machine

open Isa
open Region (Tracked)

variable {g g' : State} {loc loc' : Loc} {v v' : UInt64}

/-! ## Locations -/

/-- The units of guest state that a location stands for. -/
def Loc.words : Loc → List Tracked
  | .gpr n => [.gpr (.ofNat n.toNat)]
  | .hi => [.hiLo .hi]
  | .lo => [.hiLo .lo]
  | .fpr n => [.fpr (.ofNat n.toNat)]
  | .fprPair n => [.fpr (Fpr.ofNat n.toNat).base, .fpr (Fpr.ofNat n.toNat).base.partner]
  | .fcr n => [.fcr (.ofIndex n.toNat)]
  | .icnt => [.icnt]

namespace Loc

/-- No unit belongs to both locations. -/
def Apart (loc loc' : Loc) : Prop := ∀ u ∈ loc.words, u ∉ loc'.words

/-- Reading a location depends on its units alone. -/
theorem readLoc_congr (h : ∀ u ∈ loc.words, g'.unit u = g.unit u) :
    g'.readLoc loc = g.readLoc loc := by
  cases loc with
  | gpr n => exact h _ List.mem_cons_self
  | hi => exact h _ List.mem_cons_self
  | lo => exact h _ List.mem_cons_self
  | fpr n => exact h _ List.mem_cons_self
  | fprPair n =>
    have hlow := h _ List.mem_cons_self
    have hhigh := h _ (List.mem_cons_of_mem _ List.mem_cons_self)
    simp only [State.unit] at hlow hhigh
    simp only [State.readLoc, State.pairBits, hlow, hhigh]
  | fcr n =>
    have hword := h _ List.mem_cons_self
    have hindex : (Fcr.ofIndex n.toNat).index = ⟨n.toNat % 5, Nat.mod_lt _ (by decide)⟩ :=
      Fin.ext (Fcr.index_ofIndex _)
    simp only [State.unit, State.fcrBits, hindex] at hword
    exact hword
  | icnt => exact h _ List.mem_cons_self

/-- Writing a location gives its units bits that depend on the written value alone, and leaves all
other units alone. Only `$0` ignores the write. -/
theorem unit_writeLoc_words (loc : Loc) (v : UInt64) : ∃ w : Tracked → UInt64,
    ∀ (g : State) (u : Tracked), (g.writeLoc loc v).unit u =
      if u ∈ loc.words ∧ u ≠ .gpr .zero then w u else g.unit u := by
  -- Only a general register can be `$0`.
  have hother : ∀ w : Tracked → UInt64, .gpr .zero ∉ loc.words →
      (∀ (g : State) (u : Tracked),
        (g.writeLoc loc v).unit u = if u ∈ loc.words then w u else g.unit u) →
      ∃ w : Tracked → UInt64, ∀ (g : State) (u : Tracked), (g.writeLoc loc v).unit u =
        if u ∈ loc.words ∧ u ≠ .gpr .zero then w u else g.unit u := by
    intro w hzero hw
    refine ⟨w, fun g u => (hw g u).trans ?_⟩
    have hiff : u ∈ loc.words ∧ u ≠ .gpr .zero ↔ u ∈ loc.words :=
      and_iff_left_of_imp fun hu heq => hzero (heq ▸ hu)
    simp only [hiff]
  cases loc with
  | gpr n =>
    refine ⟨fun _ => v.toUInt32.toUInt64, fun g u => ?_⟩
    have hiff : u ∈ (Loc.gpr n).words ∧ u ≠ .gpr .zero ↔
        u = .gpr (.ofNat n.toNat) ∧ (Gpr.ofNat n.toNat).isZero = false := by
      simp only [words, List.mem_singleton]
      refine and_congr_right fun hu => ?_
      rw [hu, Bool.eq_false_iff, Ne, Ne, Gpr.isZero_iff, Tracked.gpr.injEq]
    simp only [hiff]
    exact State.unit_setReg g _ _ u
  | hi =>
    refine hother (fun _ => v.toUInt32.toUInt64) (by simp [words]) fun g u => ?_
    simp only [words, List.mem_singleton]
    exact State.unit_setHiLo g .hi _ u
  | lo =>
    refine hother (fun _ => v.toUInt32.toUInt64) (by simp [words]) fun g u => ?_
    simp only [words, List.mem_singleton]
    exact State.unit_setHiLo g .lo _ u
  | fpr n =>
    refine hother (fun _ => v.toUInt32.toUInt64) (by simp [words]) fun g u => ?_
    simp only [words, List.mem_singleton]
    exact State.unit_setFprBits g _ _ u
  | fprPair n =>
    let high := Tracked.fpr (Fpr.ofNat n.toNat).base.partner
    refine hother (fun u => if u = high then (v >>> 32).toUInt32.toUInt64 else
      v.toUInt32.toUInt64) (by simp [words]) fun g u => ?_
    refine (State.unit_setPairBits g (.ofNat n.toNat) v u).trans ?_
    simp only [words, List.mem_cons, List.not_mem_nil, or_false]
    by_cases hhigh : u = high
    · rw [if_pos hhigh, if_pos (.inr hhigh), if_pos hhigh]
    · have hiff : u = .fpr (Fpr.ofNat n.toNat).base ∨ u = high ↔
          u = .fpr (Fpr.ofNat n.toNat).base := or_iff_left hhigh
      rw [if_neg hhigh, if_neg hhigh]
      exact (if_congr hiff rfl rfl).symm
  | fcr n =>
    let c := Fcr.ofIndex n.toNat
    refine hother (fun _ => v.toUInt32.toUInt64) (by simp [words]) fun g u => ?_
    have hwrite : g.writeLoc (.fcr n) v = g.setFcr c v.toUInt32 := by
      simp only [State.writeLoc, State.setFcr, c, Fcr.index_ofIndex]
    rw [hwrite]
    simp only [words, List.mem_singleton]
    exact State.unit_setFcr g c _ u
  | icnt =>
    refine hother (fun _ => v) (by simp [words]) fun g u => ?_
    simp only [words, List.mem_singleton]
    cases u with
    | hiLo h => cases h <;> rfl
    | _ => simp [State.writeLoc, State.unit, State.reg, State.fprBits, State.fcrBits]

/-- Writing a location leaves the program counter alone. -/
theorem pc_writeLoc (g : State) (loc : Loc) (v : UInt64) : (g.writeLoc loc v).pc = g.pc := by
  cases loc with
  | gpr n =>
    simp only [State.writeLoc, State.setReg]
    split <;> rfl
  | _ => rfl

/-- A write does not show at a location apart from it. -/
theorem readLoc_writeLoc (h : loc.Apart loc') (g : State) (v : UInt64) :
    (g.writeLoc loc' v).readLoc loc = g.readLoc loc := by
  obtain ⟨w, hw⟩ := unit_writeLoc_words loc' v
  refine readLoc_congr fun u hu => ?_
  rw [hw, if_neg fun hu' => h u hu hu'.1]

/-- Writes to locations that are apart can change places. -/
theorem writeLoc_comm (h : loc.Apart loc') (g : State) (v v' : UInt64) :
    (g.writeLoc loc v).writeLoc loc' v' = (g.writeLoc loc' v').writeLoc loc v := by
  obtain ⟨w, hw⟩ := unit_writeLoc_words loc v
  obtain ⟨w', hw'⟩ := unit_writeLoc_words loc' v'
  refine State.ext_units (by simp only [pc_writeLoc]) (by simp only [Ssa.mem_writeLoc]) fun u => ?_
  simp only [hw, hw']
  by_cases hu : u ∈ loc.words ∧ u ≠ .gpr .zero
  · have hu' : ¬ (u ∈ loc'.words ∧ u ≠ .gpr .zero) := fun hu' => h u hu.1 hu'.1
    simp only [if_pos hu, if_neg hu']
  · simp only [if_neg hu]

end Loc

end HotRegion.Machine

namespace HotRegion.Region

open Isa Analysis
open Machine (State Loc)
open Ssa (Ty)

variable {r : Region} {fp : FpTouched} {q : Fpr}

/-! ## Tracked registers -/

/-- The location of a register has the units that the register keeps. -/
theorem words_loc (fp : FpTouched) (x : Tracked) : (x.loc fp).words = x.parts fp := by
  cases x with
  | gpr a => simp only [Tracked.loc, Loc.words, Tracked.parts, State.gpr_ofNat]
  | hiLo h => cases h <;> rfl
  | fpr f =>
    simp only [Tracked.loc, Tracked.parts]
    by_cases hd : fp.form f = .double
    · simp only [if_pos hd, Loc.words, State.fpr_ofNat]
    · simp only [if_neg hd, Loc.words, State.fpr_ofNat]
  | fcr c => cases c <;> rfl
  | icnt => rfl

/-- A value fills the location it is loaded from and written back to. -/
theorem width_ty (fp : FpTouched) (x : Tracked) :
    (x.ty fp).width = (Ty.ofLoc (x.loc fp)).width := by
  cases x with
  | hiLo h => cases h <;> rfl
  | fpr f =>
    simp only [Tracked.ty, Tracked.loc]
    cases fp.form f <;> rfl
  | _ => rfl

/-- Registers that are their own homes live apart. -/
theorem apart_loc {x y : Tracked} (hx : x.home fp = x) (hy : y.home fp = y) (hne : x ≠ y) :
    (x.loc fp).Apart (y.loc fp) := by
  intro u hux huy
  rw [words_loc] at hux huy
  have hux := (Tracked.mem_parts hx).1 hux
  have huy := (Tracked.mem_parts hy).1 huy
  exact hne (hux.symm.trans huy)

/-! ## Accesses -/

/-- The usage of the floating-point registers is that of the blocks as they are. -/
def FpCurrent (r : Region) : Prop := r.fpTouched = r.computeFpUsage.fpTouched

/-- Computing usage twice is computing it once. -/
theorem computeFpUsage_computeFpUsage (r : Region) :
    r.computeFpUsage.computeFpUsage = r.computeFpUsage := by
  let measure := fun (b : Block) => { b with fpTouched := b.bodyFpTouched }
  have hslots : (r.slots.map (Option.map measure)).map (Option.map measure) =
      r.slots.map (Option.map measure) := by
    rw [Array.map_map]
    congr 1
    funext b
    cases b <;> rfl
  simp only [computeFpUsage]
  rw [hslots]
  rfl

/-- Usage is current once it is computed. -/
theorem fpCurrent_computeFpUsage (r : Region) : r.computeFpUsage.FpCurrent := by
  rw [FpCurrent, computeFpUsage_computeFpUsage]

/-- A register that some code touches as a single is no half of a double. -/
theorem form_of_usesFpr_single (h : r.FpCurrent) (hq : r.UsesFpr q .single) :
    r.fpTouched.form q ≠ .double ∧ r.fpTouched.form q ≠ .covered := by
  have hhas : (r.fpTouched.get q).has .single = true := by
    rw [h]
    exact has_computeFpUsage.2 hq
  have hne : r.fpTouched.get q ≠ .double := by
    intro heq
    rw [heq] at hhas
    cases hhas
  have hpair : ¬ (r.fpTouched.get q.base = .double ∧ r.fpTouched.get q.base.partner = .double) := by
    rintro ⟨hlow, hhigh⟩
    rcases Fpr.eq_base_or_partner q with hq | hq
    · exact hne (hq ▸ hlow)
    · exact hne (hq ▸ hhigh)
  unfold FpTouched.form
  rw [if_neg hpair]
  split <;> simp

/-- An access covers the locations of the registers that it touches. -/
theorem words_ofRef {ref : RegRef} (h : ∀ q, ref = .fpr q .single → fp.form q ≠ .double ∧
    fp.form q ≠ .covered) :
    (Tracked.ofRef fp ref).flatMap (fun x => (x.loc fp).words) = Tracked.units ref := by
  simp only [words_loc]
  cases ref with
  | gpr a =>
    simp only [Tracked.ofRef, Tracked.units]
    split <;> simp [Tracked.parts]
  | hiLo a => simp [Tracked.ofRef, Tracked.units, Tracked.parts]
  | fcr c => simp [Tracked.ofRef, Tracked.units, Tracked.parts]
  | fpr q fmt =>
    cases fmt with
    | single =>
      obtain ⟨hdouble, hcovered⟩ := h q rfl
      simp [Tracked.ofRef, Tracked.units, Tracked.parts, hdouble, hcovered]
    | double =>
      simp only [Tracked.ofRef, Tracked.units]
      by_cases hd : fp.form q.base = .double
      · simp [hd, Tracked.parts]
      · -- Then the odd register is no double either, as only an even one can be.
        have hpartner : fp.form q.base.partner ≠ .double := fun hp =>
          Fpr.partner_ne_base q (by rw [← fp.base_of_form_double hp, Fpr.base_partner])
        simp [hd, hpartner, Tracked.parts]

/-! ## The registers that are live in -/

/-- The registers that a region keeps in values do not overlap. Let the usage of the floating-point
registers be that of the blocks as they are.

Two different registers that are live in live at locations without a common unit. Each register that
an instruction of a block names is covered exactly by the locations of the registers tracked for it:
one unit, or both words of a pair for a double. The value of a register has the width of its
location. A register can therefore be loaded before or after another one is written back, and the
registers can be written back in any order. -/
theorem tracked_disjoint (h : r.FpCurrent) (counting : Bool) :
    (∀ x ∈ (Usage.collect r counting).liveIn, ∀ y ∈ (Usage.collect r counting).liveIn, x ≠ y →
      (x.loc r.fpTouched).Apart (y.loc r.fpTouched)) ∧
    (∀ s b, r.block? s = some b → ∀ insn ∈ b.body, ∀ ref ∈ insn.uses ++ insn.defs,
      (Tracked.ofRef r.fpTouched ref).flatMap (fun x => (x.loc r.fpTouched).words) =
        Tracked.units ref) ∧
    (∀ x : Tracked, (x.ty r.fpTouched).width = (Ty.ofLoc (x.loc r.fpTouched)).width) ∧
    (∀ x ∈ (Usage.collect r counting).liveIn, ∀ y ∈ (Usage.collect r counting).liveIn, x ≠ y →
      ∀ (g : State) (v : UInt64), (g.writeLoc (y.loc r.fpTouched) v).readLoc (x.loc r.fpTouched) =
        g.readLoc (x.loc r.fpTouched)) ∧
    ∀ l l' : List Tracked, l.Perm l' → (∀ x ∈ l, x ∈ (Usage.collect r counting).liveIn) →
      ∀ (g : State) (value : Tracked → UInt64),
        l.foldl (fun g x => g.writeLoc (x.loc r.fpTouched) (value x)) g =
          l'.foldl (fun g x => g.writeLoc (x.loc r.fpTouched) (value x)) g := by
  -- Registers in use are homes, and different homes have no unit in common.
  have hhome := (Usage.describes_collect r counting).home
  have hapart : ∀ x ∈ (Usage.collect r counting).liveIn,
      ∀ y ∈ (Usage.collect r counting).liveIn, x ≠ y →
        (x.loc r.fpTouched).Apart (y.loc r.fpTouched) := fun x hx y hy hne =>
    apart_loc (hhome x hx).1 (hhome y hy).1 hne
  refine ⟨hapart, fun s b hb insn hi ref href => ?_, width_ty _, fun x hx y hy hne g v =>
    Loc.readLoc_writeLoc (hapart x hx y hy hne) g v, fun l l' hperm hl g value => ?_⟩
  · refine words_ofRef ?_
    rintro q rfl
    exact form_of_usesFpr_single h ⟨s, b, hb, insn, hi, _, href, rfl, rfl⟩
  · refine hperm.foldl_eq' (fun x hx y hy g => ?_) g
    by_cases hxy : x = y
    · rw [hxy]
    · exact Loc.writeLoc_comm (hapart x (hl x hx) y (hl y hy) hxy) g _ _

/-- A block that computes with doubles and moves a word into one half of `$f2`:
`add.d $f4, $f2, $f2`, `mtc1 $5, $f3` and `add.d $f6, $f6, $f6`. -/
def mixedPair : Region where
  entryAddr := 0x1000
  slots := #[some Block.entryBlock,
    some { entry := 0x1000, words := [0x46221100, 0x44851800, 0x46263180] }]
  free := []
  byAddr := [(0x1000, 1)]
  tree := none
  fpTouched := .none

/-- The mixed pair is kept as two words, which live apart from each other and from the double. -/
theorem tracked_disjoint_mixedPair :
    (Usage.collect mixedPair.computeFpUsage false).liveIn =
      [.gpr (.ofNat 5), .fpr (.ofNat 2), .fpr (.ofNat 3), .fpr (.ofNat 4), .fpr (.ofNat 6)] ∧
    Loc.Apart (.fpr 2) (.fpr 3) ∧ Loc.Apart (.fprPair 6) (.fpr 3) ∧
    ∀ (g : State) (value : Tracked → UInt64),
      [Tracked.fpr (.ofNat 3), .fpr (.ofNat 6)].foldl (fun g x =>
          g.writeLoc (x.loc mixedPair.computeFpUsage.fpTouched) (value x)) g =
        [Tracked.fpr (.ofNat 6), .fpr (.ofNat 3)].foldl (fun g x =>
          g.writeLoc (x.loc mixedPair.computeFpUsage.fpTouched) (value x)) g := by
  have hlive : (Usage.collect mixedPair.computeFpUsage false).liveIn =
      [.gpr (.ofNat 5), .fpr (.ofNat 2), .fpr (.ofNat 3), .fpr (.ofNat 4), .fpr (.ofNat 6)] := by
    decide +kernel
  obtain ⟨hapart, -, -, -, horder⟩ :=
    tracked_disjoint (fpCurrent_computeFpUsage mixedPair) false
  rw [hlive] at hapart horder
  have h₂ : (Tracked.fpr (.ofNat 2)).loc mixedPair.computeFpUsage.fpTouched = .fpr 2 := by
    decide +kernel
  have h₃ : (Tracked.fpr (.ofNat 3)).loc mixedPair.computeFpUsage.fpTouched = .fpr 3 := by
    decide +kernel
  have h₆ : (Tracked.fpr (.ofNat 6)).loc mixedPair.computeFpUsage.fpTouched = .fprPair 6 := by
    decide +kernel
  refine ⟨hlive, ?_, ?_, fun g value => horder _ _ (.swap _ _ _) (by decide) g value⟩
  · rw [← h₂, ← h₃]
    exact hapart _ (by decide) _ (by decide) (by decide)
  · rw [← h₆, ← h₃]
    exact hapart _ (by decide) _ (by decide) (by decide)

end HotRegion.Region
