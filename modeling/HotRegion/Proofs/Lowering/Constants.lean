import HotRegion.Proofs.Lowering.Exits

/-!
# Constants of the walk

The walk takes some registers for constants. It does not merge what it knows where ways come
together: a block starts with what is known at the end of its immediate dominator, less what it
merges. That is sound because a register that changes on some way between the two is merged.

## Key results

- `results_lower`: the code of an instruction knows no more than what the instruction does
- `Scope.Sound.settled_pass`: what is known at the ends of blocks stays so from block to block
- `Comes.reg_of_knows`: what the walk takes for known is so whenever the guest comes there
-/

namespace HotRegion.Lowering

open Isa Analysis Ssa Build
open HotRegion.Flow (Quiet)
open Machine (State Memory execute Untouched reg_execute)
open Region (Tracked Slot Departure Straight Transfer)

/-! ## Results of a computation -/

section Results

variable {σ ε α β : Type} {x : StateT σ (Except ε) α} {k : α → StateT σ (Except ε) β}
  {P : β → Prop} {Q Q' : α → Prop}

/-- Whatever the computation gives has the property. -/
def Results (x : StateT σ (Except ε) α) (Q : α → Prop) : Prop := ∀ s a s', x s = .ok (a, s') → Q a

/-- A computation gives what its last step gives after results of the first. -/
theorem Results.bind (hx : Results x Q) (hk : ∀ a, Q a → Results (k a) P) : Results (x >>= k) P := by
  intro s b s' h
  obtain ⟨p, hp, hb⟩ := bind_eq_ok.1 h
  exact hk p.1 (hx s p.1 p.2 hp) p.2 b s' hb

/-- Nothing needs to be known of what comes first. -/
theorem Results.after (hk : ∀ a, Results (k a) P) : Results (x >>= k) P :=
  Results.bind (Q := fun _ => True) (fun _ _ _ _ => trivial) fun a _ => hk a

/-- A value alone is the only result. -/
theorem Results.pure {a : α} (h : Q a) : Results (Pure.pure a : StateT σ (Except ε) α) Q := by
  intro s a' s' heq
  cases heq
  exact h

/-- A computation that fails gives nothing. -/
theorem Results.throw {e : ε} : Results (MonadExcept.throw e : StateT σ (Except ε) α) Q := by
  intro s a s' h
  cases h

/-- Results have every property that follows from one that they have. -/
theorem Results.imp (hx : Results x Q) (h : ∀ a, Q a → Q' a) : Results x Q' :=
  fun s a s' heq => h a (hx s a s' heq)

/-- Emitting code gives the same in the walk. -/
theorem Results.lift {y : Emit α} (hy : Results y Q) : Results (liftM y : Walk α) Q := by
  intro d a d' h
  rw [liftEmit_run] at h
  cases hrun : y d.builder with
  | error e =>
    rw [hrun] at h
    cases h
  | ok p =>
    rw [hrun] at h
    cases h
    exact hy _ _ _ hrun

/-- A property that every step of a fold keeps. -/
theorem Results.foldlM {γ : Type} {f : α → γ → StateT σ (Except ε) α} {l : List γ} {a : α}
    (hf : ∀ a, Q a → ∀ z ∈ l, Results (f a z) Q) (ha : Q a) : Results (l.foldlM f a) Q := by
  induction l generalizing a with
  | nil => exact .pure ha
  | cons z l ih =>
    rw [List.foldlM_cons]
    refine .bind (hf a ha z List.mem_cons_self) fun a' ha' => ?_
    exact ih (fun a ha z hz => hf a ha z (List.mem_cons_of_mem _ hz)) ha'

end Results

/-! ## Instructions -/

variable {t t' : RegTable} {g g' : State} {insn : Instr} {addr : UInt32} {c : Scope}
  {b : Region.Block} {K : UInt32 × UInt32 → Prop} {n : Nat} {x y z first : Slot}

/-- The registers that are taken for constants hold them. -/
def RegTable.Holds (t : RegTable) (g : State) : Prop :=
  ∀ r v, t.consts.constant? r = some v → g.reg r = v

/-- What the second table knows after the instruction is so if what the first one knows before it is
so. -/
def Tracks (t : RegTable) (addr : UInt32) (insn : Instr) (t' : RegTable) : Prop :=
  ∀ g g', t.Holds g → execute g addr insn = .ok g' → t'.Holds g'

/-- A register that is not defined is not touched. -/
private theorem untouched_of_defs {r : Gpr} (h : .gpr r ∉ insn.defs) : Untouched insn (.gpr r) :=
  Machine.untouched_gpr fun hmem => h (List.mem_filter.1 hmem).1

/-- An instruction that writes no general register leaves what is known. -/
theorem tracks_of_consts (hdefs : ∀ r, .gpr r ∉ insn.defs) (h : t'.consts = t.consts) :
    Tracks t addr insn t' := by
  intro g g' hg hrun r v hv
  rw [reg_execute hrun (untouched_of_defs (hdefs r))]
  exact hg r v (h ▸ hv)

/-- A register that is written is known to hold a constant only if that is what it gets. -/
theorem tracks_setGpr {rd : Gpr} {v : Value} {known : ConstValue} (hdefs : insn.defs = [.gpr rd])
    (hknown : ∀ x, known.constant? = some x → ∀ g, t.Holds g →
      execute g addr insn = .ok (g.setReg rd x)) :
    Tracks t addr insn (t.setGpr rd v known) := by
  intro g g' hg hrun r x hx
  rw [RegTable.constant?_setGpr] at hx
  split at hx
  · next hr =>
    rw [hknown x hx g hg] at hrun
    cases hrun
    rw [State.reg_setReg, if_pos hr]
  · next hr =>
    have huntouched : Untouched insn (.gpr r) := by
      by_cases heq : r = rd
      · have hzero : rd = .zero := Gpr.isZero_iff.1 (by simpa [heq] using hr)
        rw [heq, hzero]
        exact Machine.untouched_zero insn
      · exact untouched_of_defs (by simpa [hdefs] using heq)
    rw [reg_execute hrun huntouched]
    exact hg r x hx

/-- Writing a half changes no constants. -/
theorem results_writeHalf {f : Fpr} {h : Half} :
    Results (t.writeHalf f h) fun t' => t'.consts = t.consts := by
  unfold RegTable.writeHalf
  split
  · exact .pure rfl
  · split
    · exact .after fun _ => .pure rfl
    · exact .after fun _ => .pure rfl

/-- Writing a floating-point register changes no constants. -/
theorem results_writeFp {fmt : FpFormat} {f : Fpr} {v : Value} :
    Results (t.writeFp fmt f v) fun t' => t'.consts = t.consts := by
  cases fmt with
  | single => exact results_writeHalf
  | double => exact .pure rfl

/-- Operations on one floating-point register change no constants. -/
theorem results_lowerFpUnary {op : FpUnaryOp} {fd fs : Fpr} :
    Results (lowerFpUnary t op fd fs) fun t' => t'.consts = t.consts := by
  unfold lowerFpUnary
  cases op with
  | abs | neg | sqrt => exact .after fun _ => .after fun _ => results_writeFp
  | move => exact .after fun _ => results_writeFp
  | convert target source =>
    cases target with
    | single => exact .after fun _ => .after fun _ => results_writeHalf
    | double => exact .after fun _ => .after fun _ => .pure rfl
  | fromWord => exact .after fun _ => .after fun _ => results_writeFp
  | toWord => exact .after fun _ => .after fun _ => .after fun _ => results_writeHalf
  | truncToWord => exact .after fun _ => .after fun _ => results_writeHalf

/-- The code for an instruction whose result is not taken as known. -/
theorem results_lowerPlain : Results (lowerPlain t insn) (Tracks t addr insn) := by
  have hvariant : ∀ {rd : Gpr} {v : Value}, insn.defs = [.gpr rd] →
      Tracks t addr insn (t.setGpr rd v .variant) :=
    fun hdefs => tracks_setGpr hdefs (by simp [ConstValue.constant?])
  unfold lowerPlain
  -- What an instruction defines becomes unknown, but for the operations on constants that lowering
  -- folds.
  cases insn with
  | nop | sync => exact .pure (tracks_of_consts (by simp [Instr.defs]) rfl)
  | shift | unary | load | moveFromFpu | moveFromFcr =>
    repeat refine .after fun _ => ?_
    exact .pure (hvariant rfl)
  | alu op =>
    repeat refine .after fun _ => ?_
    split
    · exact .after fun _ => .pure (hvariant rfl)
    · exact .throw
  | imm op =>
    repeat refine .after fun _ => ?_
    split
    · exact .after fun _ => .pure (hvariant rfl)
    · exact .throw
  | mulDiv op =>
    repeat refine .after fun _ => ?_
    exact .pure (tracks_of_consts (by simp [Instr.defs]) rfl)
  | hiLoMove op r =>
    cases op with
    | fromHi | fromLo => exact .after fun _ => .pure (hvariant rfl)
    | toHi | toLo => exact .after fun _ => .pure (tracks_of_consts (by simp [Instr.defs]) rfl)
  | loadUpper rt value =>
    refine .after fun _ => .pure (tracks_setGpr rfl fun x hx g _ => ?_)
    rw [← Option.some.inj hx]
    rfl
  | store =>
    repeat refine .after fun _ => ?_
    exact .pure (tracks_of_consts (by simp [Instr.defs]) rfl)
  | fpAlu =>
    repeat refine .after fun _ => ?_
    exact results_writeFp.imp fun _ h => tracks_of_consts (by simp [Instr.defs]) h
  | fpUnary => exact results_lowerFpUnary.imp fun _ h => tracks_of_consts (by simp [Instr.defs]) h
  | fpCompare =>
    repeat refine .after fun _ => ?_
    exact .pure (tracks_of_consts (by simp [Instr.defs]) rfl)
  | fpLoad fmt =>
    cases fmt with
    | single =>
      repeat refine .after fun _ => ?_
      exact results_writeHalf.imp fun _ h => tracks_of_consts (by simp [Instr.defs]) h
    | double =>
      repeat refine .after fun _ => ?_
      exact .pure (tracks_of_consts (by simp [Instr.defs]) rfl)
  | fpStore fmt =>
    cases fmt <;>
      · repeat refine .after fun _ => ?_
        exact .pure (tracks_of_consts (by simp [Instr.defs]) rfl)
  | moveToFpu =>
    refine .after fun _ => ?_
    exact results_writeHalf.imp fun _ h => tracks_of_consts (by simp [Instr.defs]) h
  | moveToFcr => exact .after fun _ => .pure (tracks_of_consts (by simp [Instr.defs]) rfl)
  | branch | branchZero | branchZeroLink | branchFp | jump | jumpLink | jumpReg | jumpLinkReg | trap
  | syscall | breakpoint | unknown => exact .throw

/-- The code for an instruction whose result is known. -/
theorem results_lowerKnown {v : UInt32} (hfold : t.consts.fold addr insn = some v)
    (hcan : insn.canCompile = true) (hflow : insn.hasDelaySlot = false) :
    Results (liftM (lowerKnown t insn v) : Emit RegTable) (Tracks t addr insn) := by
  obtain ⟨rd, hdefs, hrun⟩ := execute_of_fold hfold hcan hflow
  by_cases hzero : rd = .zero
  · have heffective : insn.effectiveDefs = [] := by simp [Instr.effectiveDefs, hdefs, hzero]
    have hcode : lowerKnown t insn v = pure t := by simp [lowerKnown, heffective]
    rw [hcode, liftBuild_pure]
    refine .pure fun g g' hg hok => ?_
    rw [hrun g hg, hzero, setReg_zero] at hok
    cases hok
    exact hg
  · have heffective : insn.effectiveDefs = [.gpr rd] := by simp [Instr.effectiveDefs, hdefs, hzero]
    have hcode : lowerKnown t insn v = (do return t.setGpr rd (← word v) (.constant v)) := by
      simp [lowerKnown, heffective]
    rw [hcode, liftBuild_bind]
    refine .after fun _ => .pure (tracks_setGpr hdefs fun x hx g hg => ?_)
    cases hx
    exact hrun g hg

/-- The code for an instruction knows no more than what the instruction does. -/
theorem results_lower {fold : Bool} (hcan : insn.canCompile = true)
    (hflow : insn.hasDelaySlot = false) :
    Results (lower fold t addr insn) (Tracks t addr insn) := by
  unfold lower
  cases hfold : (if fold then t.consts.fold addr insn else none) with
  | none => exact results_lowerPlain
  | some v =>
    refine results_lowerKnown ?_ hcan hflow
    split at hfold
    · exact hfold
    · cases hfold

/-! ## Blocks -/

/-- Straight code knows no more than what it does. -/
theorem results_straight {fold : Bool} {code : List (UInt32 × UInt32)} (hplain : Plain code) :
    Results (code.foldlM (fun t p => lower fold t p.2 (decode p.1)) t)
      fun t' => ∀ safe g g', t.Holds g → Straight safe code g g' → t'.Holds g' := by
  induction code generalizing t with
  | nil =>
    refine .pure fun safe g g' hg hrun => ?_
    rw [show g' = g from hrun]
    exact hg
  | cons p code ih =>
    rw [List.foldlM_cons]
    have hp := List.mem_cons_self (a := p) (l := code)
    refine .bind (results_lower (hplain.can p hp) (hplain.flow p hp)) fun t₁ htracks => ?_
    refine (ih ⟨fun q hq => hplain.can q (List.mem_cons_of_mem _ hq),
      fun q hq => hplain.flow q (List.mem_cons_of_mem _ hq)⟩).imp fun t' hrest safe g g' hg hrun => ?_
    obtain ⟨g₁, hok, -, hrun⟩ := hrun
    exact hrest safe g₁ g' (htracks g g₁ hg hok) hrun

/-- Counting is no business of general registers. -/
theorem results_countInstructions :
    Results (c.countInstructions b t) fun t' => ∀ g, t.Holds g →
      t'.Holds (b.counted c.config.countInstructions g) := by
  unfold Scope.countInstructions
  split
  · repeat refine .after fun _ => ?_
    exact .pure fun g hg => hg
  · exact .pure fun g hg => hg

/-- What is known but for the registers that are to be merged is so. -/
def RegTable.HoldsBut (t : RegTable) (phis : List Tracked) (g : State) : Prop :=
  ∀ r v, t.consts.constant? r = some v → .gpr r ∉ phis → g.reg r = v

/-- Nothing is known of a register whose value comes from elsewhere. -/
theorem results_set {reg : Tracked} {v : Value} (hzero : reg ≠ .gpr .zero) :
    Results (t.set c.fp reg v) fun t' => ∀ r x, t'.consts.constant? r = some x →
      t.consts.constant? r = some x ∧ reg ≠ .gpr r := by
  -- Only a write to a general register changes what is known.
  cases reg with
  | gpr r₀ =>
    refine .pure fun r x hx => ?_
    rw [RegTable.constant?_setGpr] at hx
    split at hx
    · cases hx
    · next hr =>
      refine ⟨hx, fun heq => hr ⟨(Tracked.gpr.inj heq).symm, Gpr.isZero_eq_false fun hz => ?_⟩⟩
      exact hzero (congrArg _ hz)
  | hiLo h => exact .pure fun r x hx => ⟨by cases h <;> exact hx, by simp⟩
  | fcr i => exact .pure fun r x hx => ⟨hx, by simp⟩
  | icnt => exact .pure fun r x hx => ⟨hx, by simp⟩
  | fpr f =>
    have hsame : ∀ {t' : RegTable}, t'.consts = t.consts → ∀ r x, t'.consts.constant? r = some x →
        t.consts.constant? r = some x ∧ Tracked.fpr f ≠ .gpr r :=
      fun h r x hx => ⟨h ▸ hx, by simp⟩
    simp only [RegTable.set]
    cases c.fp.form f with
    | single | bits | covered => exact results_writeHalf.imp fun _ => hsame
    | double => exact .pure (hsame rfl)

/-- A register that is merged is not known. -/
theorem results_addPhis (hzero : .gpr .zero ∉ b.phis) :
    Results (c.addPhis x b t) fun t' => ∀ g, t.HoldsBut b.phis g → t'.Holds g := by
  -- One more register gets unknown with each merge.
  have hfold : ∀ (l : List Tracked) (t : RegTable) (made : Phis), .gpr .zero ∉ l →
      Results (l.foldlM (fun (p : RegTable × Phis) reg => do
        let v ← phi (reg.ty c.fp)
        return (← (p.1.set c.fp reg v : Emit RegTable), p.2 ++ [(reg, v)])) (t, made) : Walk _)
        fun p => ∀ r v, p.1.consts.constant? r = some v →
          t.consts.constant? r = some v ∧ .gpr r ∉ l := by
    intro l
    induction l with
    | nil => exact fun t made _ => .pure fun r v hv => ⟨hv, by simp⟩
    | cons reg l ih =>
      intro t made hnot
      obtain ⟨hreg, hnot⟩ := not_or.1 (mt List.mem_cons.2 hnot)
      rw [List.foldlM_cons]
      refine .bind (Q := fun p => ∀ r v, p.1.consts.constant? r = some v →
        t.consts.constant? r = some v ∧ reg ≠ .gpr r) (.after fun v => .bind
          (results_set (Ne.symm hreg)).lift fun t₁ h => .pure h) fun p hp => ?_
      refine (ih p.1 p.2 hnot).imp fun q hq r v hv => ?_
      obtain ⟨hv, hrest⟩ := hq r v hv
      obtain ⟨hv, hne⟩ := hp r v hv
      exact ⟨hv, by simpa using ⟨hne.symm, hrest⟩⟩
  unfold Scope.addPhis
  refine .bind (hfold b.phis t [] hzero) fun p hp => .after fun _ => .pure fun g hg r v hv => ?_
  obtain ⟨hv, hnot⟩ := hp r v hv
  exact hg r v hv hnot

variable {tr : Transfer}

/-- A register may be taken for the constant that is written to it. -/
theorem RegTable.Holds.setGpr {r : Gpr} {v : UInt32} {value : Value} (hg : t.Holds g) :
    (t.setGpr r value (.constant v)).Holds (g.setReg r v) := by
  intro r' x hx
  rw [RegTable.constant?_setGpr] at hx
  rw [State.reg_setReg]
  split at hx
  · next hr =>
    rw [if_pos hr]
    exact Option.some.inj hx
  · next hr =>
    rw [if_neg hr]
    exact hg r' x hx

/-- The link of a transfer. -/
theorem results_linkCode (hcan : tr.insn.canCompile = true) :
    Results (liftM (Scope.linkCode tr t) : Emit RegTable)
      fun t' => ∀ g, t.Holds g → t'.Holds (g.link tr.addr tr.insn) := by
  unfold Scope.linkCode
  cases hi : tr.insn with
  | jumpLink | jumpLinkReg =>
    simp only [Scope.link, liftBuild_bind]
    exact .after fun _ => .pure fun g hg => hg.setGpr
  | branchZeroLink =>
    rw [hi] at hcan
    cases hcan
  | _ => exact .pure fun g hg => hg

/-- The delay slot of a transfer. -/
theorem results_delayCode {d : UInt32} (htr : b.transfer = some tr) (hb : b.Shaped)
    (hcan : ∀ w ∈ b.words, (decode w).canCompile = true) (hd : b.words[tr.index + 1]? = some d)
    (hdrop : b.code.drop (tr.index + 1) = [(d, tr.addr + 4)]) :
    Results (c.delayCode tr (decode d) t) fun t' => ∀ safe g g', t.Holds g →
      Straight safe (b.code.drop (tr.index + 1)) g g' → t'.Holds g' := by
  have hplain : Plain [(d, tr.addr + 4)] :=
    ⟨by simpa using hcan d (List.mem_of_getElem? hd), by simpa using hb.delay htr hd⟩
  have hdelay : Results ([(d, tr.addr + 4)].foldlM
      (fun t p => lower c.config.foldConstants t p.2 (decode p.1)) t) _ := results_straight hplain
  rw [hdrop]
  simpa [Scope.delayCode] using hdelay

/-- The link and the delay slot of a transfer that always runs it. -/
theorem results_linkedDelay {d : UInt32} (htr : b.transfer = some tr) (hb : b.Shaped)
    (hcan : ∀ w ∈ b.words, (decode w).canCompile = true) (hd : b.words[tr.index + 1]? = some d)
    (hdrop : b.code.drop (tr.index + 1) = [(d, tr.addr + 4)]) (hcanTr : tr.insn.canCompile = true) :
    Results (c.linkedDelay tr (decode d) t) fun t' => ∀ safe g g', t.Holds g →
      Straight safe (b.code.drop (tr.index + 1)) (g.link tr.addr tr.insn) g' → t'.Holds g' := by
  unfold Scope.linkedDelay
  refine .bind (results_linkCode hcanTr) fun t₁ hlink => ?_
  exact (results_delayCode htr hb hcan hd hdrop).imp fun t' hdelay safe g g' hg hrun =>
    hdelay safe _ g' (hlink g hg) hrun

/-- A transfer with its delay slot. -/
theorem results_transferCode (htr : b.transfer = some tr) (hb : b.Shaped)
    (hcan : ∀ w ∈ b.words, (decode w).canCompile = true) :
    Results (do c.transferCode tr (← Scope.delaySlot b tr) t : Emit (RegTable × Ending)) fun p =>
      ∀ safe g g' out, t.Holds g → b.Leaves safe tr g g' out → p.1.Holds g' := by
  obtain ⟨w, hw, _, _, hinsn, hcontrol, _⟩ := Region.Block.transfer_eq_some htr
  obtain ⟨_, d, _, hdrop, _, _, hd, _⟩ := Region.Block.code_of_transfer htr
  have hcanTr : tr.insn.canCompile = true := hinsn ▸ hcan w (List.mem_of_getElem? hw)
  -- A transfer that is not likely runs its delay slot.
  have hdelayed : ∀ {t' : RegTable}, tr.insn.isLikelyBranch = false →
      (∀ safe g g', t.Holds g →
        Straight safe (b.code.drop (tr.index + 1)) (g.link tr.addr tr.insn) g' → t'.Holds g') →
      ∀ safe g g' out, t.Holds g → b.Leaves safe tr g g' out → t'.Holds g' := by
    intro t' hlikely h safe g g' out hg hleaves
    cases hleaves with
    | likely isLikely =>
      rw [hlikely] at isLikely
      cases isLikely
    | @transfer g₂ _ delay => exact h safe g g₂ hg delay
  rw [delaySlot_eq_ok hd]
  change Results (c.transferCode tr (decode d) t) _
  unfold Scope.transferCode
  cases hctl : tr.control with
  | none => exact .throw
  | branch taken notTaken likely =>
    obtain ⟨hlikely, -, hfacts⟩ := branch_facts (hcontrol.symm.trans hctl) hcanTr
    refine .after fun _ => ?_
    cases likely with
    | true =>
      refine .pure fun safe g g' out hg hleaves => ?_
      cases hleaves with
      | likely => exact hg
      | transfer isLikely =>
        rw [hlikely] at isLikely
        cases isLikely
    | false =>
      refine .bind (results_delayCode htr hb hcan hd hdrop) fun t' hdelay => .pure (hdelayed hlikely ?_)
      intro safe g g' hg hrun
      rw [(hfacts g).2] at hrun
      exact hdelay safe g g' hg hrun
  | jump target =>
    obtain ⟨hlikely, -⟩ := jump_facts (hcontrol.symm.trans hctl)
    refine .bind (results_linkedDelay htr hb hcan hd hdrop hcanTr) fun t' hdelay => ?_
    exact .pure (hdelayed hlikely hdelay)
  | jumpReg =>
    obtain ⟨hlikely, rs, rd, hops, -⟩ := jumpReg_facts (hcontrol.symm.trans hctl)
    simp only [hops]
    refine .after fun _ => .bind (results_linkedDelay htr hb hcan hd hdrop hcanTr) fun t' hdelay => ?_
    exact .pure (hdelayed hlikely hdelay)

/-- The code before the transfer of a block is plain. -/
theorem plain_code (hb : b.Shaped) (hcan : ∀ w ∈ b.words, (decode w).canCompile = true) {i : Nat}
    (hi : ∀ tr, b.transfer = some tr → i ≤ tr.index) : Plain (b.code.take i) := by
  constructor
  · intro p hp
    obtain ⟨j, w, hw, rfl⟩ := Region.Block.mem_code.1 (List.mem_of_mem_take hp)
    exact hcan w (List.mem_of_getElem? hw)
  · intro p hp
    cases htr : b.transfer with
    | none => exact hb.through htr (List.mem_of_mem_take hp)
    | some tr => exact hb.straight htr (List.take_subset_take_left _ (hi tr htr) hp)

/-- The code of a block up to a position. -/
theorem results_codeUpTo (hb : b.Shaped) (hcan : ∀ w ∈ b.words, (decode w).canCompile = true)
    {i : Nat} (hi : ∀ tr, b.transfer = some tr → i ≤ tr.index) :
    Results (c.codeUpTo b i t) fun t' => ∀ safe g g', t.Holds g →
      Straight safe (b.code.take i) (b.counted c.config.countInstructions g) g' → t'.Holds g' := by
  unfold Scope.codeUpTo
  refine .bind results_countInstructions fun t₁ hcount => ?_
  exact (results_straight (plain_code hb hcan hi)).imp fun t' hrest safe g g' hg hrun =>
    hrest safe _ g' (hcount g hg) hrun

/-- The code of a block after its merges. -/
theorem results_bodyCode (hb : b.Shaped) (hcan : ∀ w ∈ b.words, (decode w).canCompile = true) :
    Results (c.bodyCode b t) fun p => ∀ safe g g' out, t.Holds g →
      b.Passes c.config.countInstructions safe g g' out → p.1.Holds g' := by
  unfold Scope.bodyCode
  -- Counting keeps what is known, and so does straight code, up to the transfer or the end.
  refine .bind results_countInstructions fun t₁ hcount => ?_
  cases htr : b.transfer with
  | none =>
    have hplain : Plain b.code := by
      have := plain_code hb hcan (i := b.code.length) (by simp [htr])
      rwa [List.take_length] at this
    refine .bind (results_straight hplain) fun t₂ hrun => .pure fun safe g g' out hg hpass => ?_
    cases hpass with
    | @through g₁ _ _ run _ => exact hrun safe _ g₁ (hcount g hg) run
    | likely transfer _ _ => cases htr.symm.trans transfer
    | transfer transfer _ _ _ => cases htr.symm.trans transfer
  | some tr =>
    have hplain := plain_code hb hcan (i := tr.index) fun tr' h => by
      cases htr.symm.trans h
      exact Nat.le_refl _
    refine .bind (results_straight hplain) fun t₂ hrun => ?_
    refine (results_transferCode htr hb hcan).imp fun p hleave safe g g' out hg hpass => ?_
    obtain ⟨g₁, run, hleaves⟩ := hpass.leaves htr
    exact hleave safe g₁ g' out (hrun safe _ _ (hcount g hg) run) hleaves

/-- A block with its merges. -/
theorem results_lowerBlock (hb : b.Shaped) (hcan : ∀ w ∈ b.words, (decode w).canCompile = true)
    (hzero : .gpr .zero ∉ b.phis) :
    Results (c.lowerBlock x b t) fun t' => ∀ safe g g' out, t.HoldsBut b.phis g →
      b.Passes c.config.countInstructions safe g g' out → t'.Holds g' := by
  rw [lowerBlock_eq]
  refine .after fun _ => .after fun _ => .bind (results_addPhis hzero) fun t₁ hphis => ?_
  refine .bind (results_bodyCode hb hcan).lift fun p hbody => ?_
  have hend : Results (pure p.1 : Walk RegTable) fun t' => ∀ safe g g' out, t.HoldsBut b.phis g →
      b.Passes c.config.countInstructions safe g g' out → t'.Holds g' :=
    .pure fun safe g g' out hg hpass => hbody safe g g' out (hphis g hg) hpass
  dsimp only
  split
  · exact .after fun _ => hend
  · exact hend

/-- The synthetic entry. -/
theorem results_enterRegion (hzero : .gpr .zero ∉ c.usage.liveIn) :
    Results (c.enterRegion t) fun t' => ∀ g, t.Holds g → t'.Holds g := by
  unfold Scope.enterRegion
  have hload : Results (c.loadLiveIn t) fun t' => ∀ g, t.Holds g → t'.Holds g := by
    refine .foldlM (fun t₁ h reg hreg => .after fun raw => ?_) fun g hg => hg
    have hset : ∀ v, Results (t₁.set c.fp reg v) fun t₂ => ∀ g, t.Holds g → t₂.Holds g := fun v =>
      (results_set fun heq => hzero (heq ▸ hreg)).imp fun t₂ h₂ g hg r v hv =>
        h g hg r v (h₂ r v hv).1
    dsimp only
    split
    · exact .after hset
    · exact hset _
  refine .bind hload.lift fun t' h => ?_
  dsimp only
  split
  · exact .after fun _ => .pure h
  · exact .after fun _ => .after fun _ => .pure h

/-! ## Points -/

/-- The guest that enters the block at `h` is at `g` when it comes to the point. -/
inductive Point.At (counting : Bool) (b : Region.Block) (h : State) : Point → State → Prop where
  | before {i : Nat} {g : State} (early : ∀ tr, b.transfer = some tr → i ≤ tr.index)
      (run : Straight (fun _ => True) (b.code.take i) (b.counted counting h) g) :
      At counting b h (.before i) g
  | delay {tr : Transfer} {g : State} (transfer : b.transfer = some tr)
      (run : Straight (fun _ => True) (b.code.take tr.index) (b.counted counting h) g) :
      At counting b h (.delay tr) (g.link tr.addr tr.insn)
  | stop {g : State} {out : Departure} (pass : b.Passes counting (fun _ => True) h g out) :
      At counting b h .stop g

/-- What the table at a point knows is so when the guest comes to the point. -/
theorem results_tableAt (hb : b.Shaped) (hcan : ∀ w ∈ b.words, (decode w).canCompile = true)
    (hzero : .gpr .zero ∉ b.phis) {point : Point} {h : State}
    (hat : point.At c.config.countInstructions b h g) (hh : t.HoldsBut b.phis h) :
    Results (c.tableAt x b t point) fun t' => t'.Holds g := by
  cases hat with
  | before early run =>
    refine .bind (results_addPhis hzero) fun t₁ hphis => ?_
    exact (results_codeUpTo hb hcan early).lift.imp fun t' hcode => hcode _ h g (hphis h hh) run
  | @delay tr g transfer run =>
    obtain ⟨w, hw, _, _, hinsn, _, _⟩ := Region.Block.transfer_eq_some transfer
    have hcanTr : tr.insn.canCompile = true := hinsn ▸ hcan w (List.mem_of_getElem? hw)
    have hearly : ∀ tr', b.transfer = some tr' → tr.index ≤ tr'.index := fun tr' htr' => by
      cases transfer.symm.trans htr'
      exact Nat.le_refl _
    refine .bind (results_addPhis hzero) fun t₁ hphis => ?_
    refine .bind (results_codeUpTo hb hcan hearly).lift fun t₂ hcode => ?_
    exact (results_linkCode hcanTr).lift.imp fun t' hlink => hlink g (hcode _ h g (hphis h hh) run)
  | stop pass => exact (results_lowerBlock hb hcan hzero).imp fun t' hblock => hblock _ h g _ hh pass

/-! ## From block to block -/

/-- The walk takes a register for a constant at the end of a block, and hands that down. -/
def Scope.HandsDown (c : Scope) (a : Slot) (r : Gpr) (v : UInt32) : Prop :=
  ∃ b t t' d d', c.region.block? a = some b ∧ c.Hands a t ∧
    (if b.isRegionEntry then c.enterRegion t else c.lowerBlock a b t) d = .ok (t', d') ∧
      t'.consts.constant? r = some v

/-- What is known at the ends of the blocks above a block is so at its end, for the registers that
were not touched since. -/
def Settled (c : Scope) (x : Slot) (g : State) : Prop :=
  ∀ a r v, c.region.flowGraph.Dominates a x → c.Lasts a x (.gpr r) → c.HandsDown a r v → g.reg r = v

namespace Scope.Sound

variable (hc : c.Sound K n)

include hc

/-- The zero register is not written. -/
theorem zero_not_written : .gpr .zero ∉ c.usage.written := fun hmem =>
  (hc.ready.usage.home _ (hc.ready.usage.written _ hmem)).2.1 rfl

/-- The zero register is not merged. -/
theorem zero_not_merged (hb : c.region.block? x = some b) : .gpr .zero ∉ b.phis := by
  intro hmem
  have hphis : c.region.phisAt x = b.phis := by rw [Region.phisAt, hb]
  exact hc.zero_not_written (hc.ready.phis_written x _ (hphis ▸ hmem))

/-- At the start of a region only `$0` is known. -/
theorem settled_start (s : State) (pc : UInt32) : Settled c Region.entrySlot (s.enter pc) := by
  rintro a r v hdom - ⟨b, t, t', d, d', hb, hands, hcode, hv⟩
  obtain rfl : a = Region.entrySlot := hdom.eq_entry
  obtain ⟨eb, heb, hentry, -⟩ := hc.ready.entry
  obtain rfl := Option.some.inj (heb.symm.trans hb)
  have hmark : eb.isRegionEntry = true := by
    rw [Region.Block.isRegionEntry, hentry]
    rfl
  rw [if_pos hmark] at hcode
  have hstart : t.Holds (s.enter pc) := by
    cases hands with
    | root zero =>
      intro r v hv
      have hzero : (s.enter pc).reg .zero = 0 := by rw [State.reg_enter, if_pos rfl]
      exact (agrees_new (V := fun _ => 0) rfl hzero (.gpr r)).known r v rfl hv
    | child _ _ _ below =>
      obtain ⟨-, hidom⟩ := hc.mem_children.1 below
      cases (Flow.Graph.idom_entry hc.wellFormed).symm.trans hidom
  have hlive : .gpr .zero ∉ c.usage.liveIn := fun hmem => (hc.ready.usage.home _ hmem).2.1 rfl
  exact results_enterRegion hlive _ _ _ hcode _ hstart r v hv

variable {g g' : State} {out : Departure}

/-- A block starts with what is known and not merged. -/
theorem holdsBut_of_settled (h : Settled c x g) (hedge : y ∈ c.region.flowGraph.succs x)
    (hne : y ≠ Region.entrySlot) (hb : c.region.block? y = some b) (hands : c.Hands y t) :
    t.HoldsBut b.phis g := by
  intro r v hv hnot
  cases hands with
  | root => exact absurd rfl hne
  | @child z _ bz tz _ d d' above block code below =>
    obtain ⟨hlive, hidom⟩ := hc.mem_children.1 below
    obtain ⟨hdom, hzy⟩ := hc.below_of_idom hlive hidom
    have hphis : c.region.phisAt y = b.phis := by rw [Region.phisAt, hb]
    refine h z r v (hdom.of_succ hzy hedge) (Laid.lasts_pred hzy hedge ?_)
      ⟨bz, tz, t, d, d', block, above, code, hv⟩
    exact Laid.quiet_of_idom hc hlive hidom (hphis ▸ hnot)

/-- Passing through a block. -/
theorem settled_pass {safe : Memory → Prop} (h : Settled c x g)
    (hedge : y ∈ c.region.flowGraph.succs x)
    (hne : y ≠ Region.entrySlot) (hb : c.region.block? y = some b)
    (hpass : b.Passes c.config.countInstructions safe g g' out) : Settled c y g' := by
  intro a r v hdom hlasts hdown
  by_cases hay : a = y
  · subst hay
    obtain ⟨b', t, t', d, d', hb', hands, hcode, hv⟩ := hdown
    obtain rfl := Option.some.inj (hb.symm.trans hb')
    rw [hc.mark a b hne hb, if_neg (by simp)] at hcode
    have hstart := hc.holdsBut_of_settled h hedge hne hb hands
    exact results_lowerBlock (hc.shaped hne hb) (hc.can a b hne hb) (hc.zero_not_merged hb) _ _ _
      hcode safe g g' out hstart hpass r v hv
  · obtain ⟨hquiet, hnot⟩ := hlasts.resolve_left hay
    have hunit : g'.unit (.gpr r) = g.unit (.gpr r) :=
      Laid.unit_eq_of_passes hc hb (fun hdef => hnot (.inl hdef)) hpass
    rw [show g'.reg r = g.reg r from toUInt64_inj.1 hunit]
    exact h a r v (hdom.of_succ hay hedge) (Laid.lasts_pred hay hedge hquiet) hdown

end Scope.Sound

/-- The guest has come to a block from one at whose end what is known was so. -/
theorem Comes.settled {safe : Memory → Prop} {h : State} (hc : c.Sound K n)
    (hcomes : Comes c safe x g y h) (hne : x ≠ Region.entrySlot)
    (hfrom : ∃ w, Settled c w g ∧ x ∈ c.region.flowGraph.succs w) :
    ∃ w, Settled c w h ∧ y ∈ c.region.flowGraph.succs w := by
  induction hcomes with
  | here => exact hfrom
  | hop block pass next _ ih =>
    obtain ⟨w, hsettled, hedge⟩ := hfrom
    obtain ⟨-, hne', hedge'⟩ := hc.live_succ block (Scope.mem_of_next next)
    exact ih hne' ⟨_, hc.settled_pass hsettled hedge hne block pass, hedge'⟩

/-- What the walk takes for known at a point of a block is so whenever the guest comes there. -/
theorem Comes.reg_of_knows {safe : Memory → Prop} {s h : State} {point : Point} {r : Gpr}
    {v : UInt32} (hc : c.Sound K n) (hfirst : c.region.firstBlock? = some first)
    (hcomes : Comes c safe first (s.enter c.region.entryAddr) x h)
    (hb : c.region.block? x = some b) (hat : point.At c.config.countInstructions b h g)
    (hknows : c.Knows x point r v) : g.reg r = v := by
  obtain ⟨first', fb, hfirst', hsuccs, hfb, -⟩ := hc.ready.first
  obtain rfl := Option.some.inj (hfirst.symm.trans hfirst')
  have hedge : first ∈ c.region.flowGraph.succs Region.entrySlot := (hsuccs first).2 rfl
  have hne : first ≠ Region.entrySlot := hc.ready.rooted.ne_entry hedge
  obtain ⟨w, hsettled, hedge'⟩ := hcomes.settled hc hne ⟨_, hc.settled_start s _, hedge⟩
  have hx := hcomes.ne_entry hc hne
  obtain ⟨b', t, t', d, d', hb', hands, htable, hv⟩ := hknows
  obtain rfl := Option.some.inj (hb.symm.trans hb')
  have hstart := hc.holdsBut_of_settled hsettled hedge' hx hb hands
  exact results_tableAt (hc.shaped hx hb) (hc.can x b hx hb) (hc.zero_not_merged hb) hat hstart
    _ _ _ htable r v hv

end HotRegion.Lowering
