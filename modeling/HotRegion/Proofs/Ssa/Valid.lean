import HotRegion.Proofs.Ssa.Code

/-!
# Valid functions

The rules that validation checks, said of the function itself: every value is defined once, reads
only concern defined values, phis come first and cover the predecessors of their block, the type
rules hold, and every block ends and goes on at blocks of the function.

## Key results

- `validate_eq_ok_iff`: validation accepts exactly the functions that keep these rules
- `Code.checkTypes`: code in order keeps the type rules
-/

namespace HotRegion.Ssa

variable {f : Function} {id : BlockId} {b : Block} {insts : List Inst} {marks : Array Bool}
  {preds : List BlockId} {v : Value} {inst : Inst}

/-! ## Checks in sequence -/

/-- Steps succeed one after the other, each on what the one before gives. -/
theorem bind_eq_ok {ε α β : Type} {x : Except ε α} {k : α → Except ε β} {y : β} :
    (x >>= k) = .ok y ↔ ∃ a, x = .ok a ∧ k a = .ok y := by
  cases x with
  | error e => simp [bind, Except.bind]
  | ok a => simp [bind, Except.bind]

/-- A check passes before the rest. -/
theorem check_bind_eq_ok {ε β : Type} {x : Except ε Unit} {k : Unit → Except ε β} {y : β} :
    (x >>= k) = .ok y ↔ x = .ok () ∧ k () = .ok y := by
  rw [bind_eq_ok]
  exact ⟨fun ⟨(), h⟩ => h, fun h => ⟨(), h⟩⟩

/-- Renaming errors changes no success. -/
theorem mapError_eq_ok {ε ε' α : Type} {x : Except ε α} {g : ε → ε'} {a : α} :
    x.mapError g = .ok a ↔ x = .ok a := by
  cases x with
  | error e => exact ⟨nofun, nofun⟩
  | ok b => exact ⟨fun h => by cases h; rfl, fun h => by cases h; rfl⟩

/-- A loop of checks passes if all of them do. -/
theorem forM_eq_ok {ε α : Type} {l : List α} {g : α → Except ε Unit} :
    l.forM g = .ok () ↔ ∀ a ∈ l, g a = .ok () := by
  induction l with
  | nil => simp [List.forM_nil, pure, Except.pure]
  | cons a l ih =>
    change (g a >>= fun _ => l.forM g) = _ ↔ _
    rw [check_bind_eq_ok, List.forall_mem_cons, ← ih]

@[simp] theorem throw_eq_error {ε α : Type} (e : ε) : (throw e : Except ε α) = .error e := rfl

@[simp] theorem error_bind {ε α β : Type} (e : ε) (k : α → Except ε β) :
    (Except.error e >>= k) = .error e := rfl

@[simp] theorem ok_bind {ε α β : Type} (a : α) (k : α → Except ε β) :
    (Except.ok a >>= k) = k a := rfl

/-- A check that throws under a condition and goes on otherwise. -/
theorem unless_eq_ok {ε α : Type} {p : Prop} [Decidable p] {e : ε} {k : Unit → Except ε α} {a : α} :
    (if p then (throw e >>= k) else k ()) = .ok a ↔ ¬ p ∧ k () = .ok a := by
  by_cases h : p <;> simp [h]

@[simp] theorem pure_eq_ok {ε α : Type} (a : α) : (pure a : Except ε α) = .ok a := rfl

/-! ## Refusals -/

/-- Steps fail at the first one or later. -/
theorem bind_eq_error {ε α β : Type} {x : Except ε α} {k : α → Except ε β} {e : ε} :
    (x >>= k) = .error e ↔ x = .error e ∨ ∃ a, x = .ok a ∧ k a = .error e := by
  cases x <;> simp [bind, Except.bind]

/-- Renaming errors changes nothing but the error. -/
theorem mapError_eq_error {ε ε' α : Type} {x : Except ε α} {g : ε → ε'} {e : ε'} :
    x.mapError g = .error e ↔ ∃ e', x = .error e' ∧ g e' = e := by
  cases x with
  | error e' =>
    constructor
    · intro h
      exact ⟨e', rfl, Except.error.inj h⟩
    · rintro ⟨e₁, h, rfl⟩
      cases h
      rfl
  | ok a =>
    constructor
    · intro h
      cases h
    · rintro ⟨e₁, h, -⟩
      cases h

/-- A check that throws if its condition fails, and the rest. -/
theorem unless_eq_error {ε α : Type} {p : Prop} [Decidable p] {e e' : ε} {k : Unit → Except ε α} :
    (if p then (throw e' >>= k) else k ()) = .error e ↔ p ∧ e' = e ∨ ¬ p ∧ k () = .error e := by
  by_cases h : p <;> simp [h]

/-- A loop of checks fails at one of them. -/
theorem forM_eq_error {ε α : Type} {l : List α} {g : α → Except ε Unit} {e : ε}
    (h : l.forM g = .error e) : ∃ a ∈ l, g a = .error e := by
  induction l with
  | nil => cases h
  | cons a l ih =>
    change (g a >>= fun _ => l.forM g) = _ at h
    rcases bind_eq_error.1 h with h | ⟨_, -, h⟩
    · exact ⟨a, List.mem_cons_self, h⟩
    · obtain ⟨b, hb, h⟩ := ih h
      exact ⟨b, List.mem_cons_of_mem _ hb, h⟩

/-! ## Phis first -/

/-- The instructions of a block are its phis before its body. -/
theorem Block.insts_eq (b : Block) : b.insts.toList = b.phis ++ b.body :=
  List.takeWhile_append_dropWhile.symm

/-- The phis of a block are phis. -/
theorem Block.phi_of_mem (h : inst ∈ b.phis) : inst.isPhi = true :=
  List.all_eq_true.1 List.all_takeWhile inst h

namespace Function

/-! ## Definitions -/

/-- The value is defined somewhere in the function. -/
def Defines (f : Function) (v : Value) : Prop := v ∈ dsts f.allInsts

/-- The instructions of a function are those of its blocks. -/
theorem mem_allInsts {inst : Inst} : inst ∈ f.allInsts ↔
    ∃ (i : Nat) (b : Block), f.blocks[i]? = some b ∧ inst ∈ b.insts.toList := by
  simp only [allInsts, List.mem_flatMap, Array.mem_toList_iff]
  constructor
  · rintro ⟨b, hb, hinst⟩
    obtain ⟨i, hi⟩ := Array.mem_iff_getElem?.1 hb
    exact ⟨i, b, hi, hinst⟩
  · rintro ⟨i, b, hi, hinst⟩
    exact ⟨b, Array.mem_of_getElem? hi, hinst⟩

/-- Marking succeeds if no value is defined twice or was marked before, and then the marked values
are those defined. -/
theorem markDefined_spec (marks : Array Bool) (insts : List Inst)
    (hbound : ∀ v ∈ dsts insts, v.index < marks.size) :
    ((∃ marks', markDefined marks insts = .ok marks') ↔
      (dsts insts).Nodup ∧ ∀ v ∈ dsts insts, marks.getD v.index false = false) ∧
    ∀ marks', markDefined marks insts = .ok marks' →
      ∀ i, marks'.getD i false = true ↔ marks.getD i false = true ∨ ∃ v ∈ dsts insts, v.index = i := by
  induction insts generalizing marks with
  | nil =>
    refine ⟨by simp [markDefined], fun marks' h i => ?_⟩
    cases h
    simp
  | cons inst insts ih =>
    cases hdst : inst.dst? with
    | none =>
      have hcons : dsts (inst :: insts) = dsts insts := by simp [dsts, hdst]
      rw [hcons] at hbound ⊢
      simp only [markDefined, hdst]
      exact ih marks hbound
    | some v =>
      have hcons : dsts (inst :: insts) = v :: dsts insts := by simp [dsts, hdst]
      rw [hcons] at hbound ⊢
      have hv : v.index < marks.size := hbound v List.mem_cons_self
      -- The marks after this definition.
      have hmark : ∀ i, (marks.setIfInBounds v.index true).getD i false =
          if i = v.index then true else marks.getD i false := by
        intro i
        simp only [Array.getD_eq_getD_getElem?, Array.getElem?_setIfInBounds]
        by_cases hi : i = v.index
        · simp [hi, hv]
        · rw [if_neg (Ne.symm hi), if_neg hi]
      have hinj : ∀ w : Value, w.index = v.index ↔ w = v := by
        rintro ⟨i⟩
        obtain ⟨j⟩ := v
        simp
      obtain ⟨hiff, hmarks⟩ := ih (marks.setIfInBounds v.index true) fun w hw => by
        rw [Array.size_setIfInBounds]
        exact hbound w (List.mem_cons_of_mem _ hw)
      simp only [markDefined, hdst]
      by_cases hold : marks.getD v.index false = true
      · simp only [hold, if_true]
        refine ⟨⟨fun h => ?_, fun h => ?_⟩, fun _ h => (by cases h)⟩
        · obtain ⟨_, h⟩ := h
          cases h
        · rw [h.2 v List.mem_cons_self] at hold
          cases hold
      · rw [if_neg hold]
        refine ⟨hiff.trans ?_, fun marks' h i => (hmarks marks' h i).trans ?_⟩
        · simp only [hmark, hinj, List.nodup_cons, List.forall_mem_cons, Bool.not_eq_true] at hold ⊢
          grind
        · simp only [hmark, List.mem_cons]
          grind

/-! ## Blocks -/

/-- Every phi of the list covers the predecessors. -/
def Covers (preds : List BlockId) (insts : List Inst) : Prop :=
  ∀ dst incoming, .phi dst incoming ∈ insts → coversPredecessors preds incoming = true

/-- All values that are used must be marked as defined. -/
theorem checkDefined_eq_ok {values : List Value} :
    checkDefined marks id values = .ok () ↔ ∀ v ∈ values, marks.getD v.index false = true := by
  rw [checkDefined, forM_eq_ok]
  refine forall₂_congr fun v _ => ?_
  split <;> simp_all

/-- After an instruction that is not a phi, none may follow. -/
theorem checkInsts_cons (h : inst.isPhi = false) :
    f.checkInsts marks id preds past (inst :: insts) = (do
      checkDefined marks id inst.operands
      (f.checkTypes inst).mapError (.type id ·)
      f.checkInsts marks id preds true insts) := by
  cases inst with
  | phi => cases h
  | _ => cases past <;> rfl

/-- The instructions of a block pass if their operands are defined, their types fit, the phis have
an input from every predecessor, and no phi comes late. -/
theorem checkInsts_eq_ok (past : Bool) :
    f.checkInsts marks id preds past insts = .ok () ↔
      (∀ inst ∈ insts, (∀ v ∈ inst.operands, marks.getD v.index false = true) ∧
        f.checkTypes inst = .ok ()) ∧
      Covers preds insts ∧
      ∀ inst ∈ (if past then insts else insts.dropWhile Inst.isPhi), inst.isPhi = false := by
  -- Induction on the instructions. `past` says whether the phis are over.
  induction insts generalizing past with
  | nil => simp [checkInsts, Covers]
  | cons inst insts ih =>
    have hcovers : Covers preds (inst :: insts) ↔ Covers preds [inst] ∧ Covers preds insts := by
      simp only [Covers, List.mem_cons, List.not_mem_nil, or_false]
      grind
    have hskip : Covers preds [inst] ↔ ∀ dst incoming, inst = .phi dst incoming →
        coversPredecessors preds incoming = true := by
      simp only [Covers, List.mem_singleton, eq_comm]
    rw [hcovers, hskip, List.forall_mem_cons]
    cases hphi : inst.isPhi with
    | false =>
      have hno : ∀ dst incoming, inst ≠ .phi dst incoming := by
        rintro dst incoming rfl
        cases hphi
      rw [checkInsts_cons hphi, check_bind_eq_ok, checkDefined_eq_ok, check_bind_eq_ok,
        mapError_eq_ok, ih]
      cases past <;> simp [hphi, hno, and_assoc]
    | true =>
      cases inst with
      | phi dst incoming =>
        rw [checkInsts, check_bind_eq_ok, checkDefined_eq_ok]
        cases past <;> cases hc : coversPredecessors preds incoming <;>
          simp [check_bind_eq_ok, mapError_eq_ok, ih, hc, hphi, and_assoc]
      | _ => cases hphi

/-- The rules for one block. -/
structure ValidBlock (f : Function) (id : BlockId) (b : Block) : Prop where
  reads : ∀ inst ∈ b.insts.toList, ∀ v ∈ inst.operands, f.Defines v
  types : ∀ inst ∈ b.insts.toList, f.checkTypes inst = .ok ()
  covers : Covers (f.predecessors id) b.insts.toList
  body : ∀ inst ∈ b.body, inst.isPhi = false
  ends : ∃ t, b.terminator = some t ∧ (∀ k ∈ t.successors, k.index < f.blocks.size) ∧
    (∀ v ∈ t.operands, f.Defines v) ∧ f.checkEnd t = .ok ()

/-- The rules for a function. -/
structure Valid (f : Function) : Prop where
  once : (dsts f.allInsts).Nodup
  entry : f.predecessors Function.entry = []
  block : ∀ i b, f.blocks[i]? = some b → f.ValidBlock ⟨i⟩ b

/-- A block passes if it is valid, once all values that are defined are marked. -/
theorem checkBlock_eq_ok (hmarks : ∀ v : Value, marks.getD v.index false = true ↔ f.Defines v) :
    f.checkBlock marks id b = .ok () ↔ f.ValidBlock id b := by
  unfold checkBlock
  cases hterm : b.terminator with
  | none =>
    simp only [reduceCtorEq, false_iff]
    intro h
    obtain ⟨t, ht, _⟩ := h.ends
    rw [hterm] at ht
    cases ht
  | some t =>
    simp only [unless_eq_ok, check_bind_eq_ok, checkInsts_eq_ok, checkDefined_eq_ok, mapError_eq_ok,
      hmarks, List.any_eq_true, decide_eq_true_eq, not_exists, not_and, Nat.not_le]
    constructor
    · rintro ⟨htargets, ⟨hinsts, hcovers, hbody⟩, hops, hend⟩
      exact ⟨fun inst hi => (hinsts inst hi).1, fun inst hi => (hinsts inst hi).2, hcovers, hbody,
        t, hterm, htargets, hops, hend⟩
    · intro h
      obtain ⟨t', ht', htargets, hops, hend⟩ := h.ends
      obtain rfl : t = t' := Option.some.inj (hterm.symm.trans ht')
      exact ⟨htargets, ⟨fun inst hi => ⟨h.reads inst hi, h.types inst hi⟩, h.covers, h.body⟩,
        hops, hend⟩

/-- In a function that validation accepts no edge leads to the entry, and every block ends. -/
theorem ends_of_validate (h : f.validate = .ok ()) :
    f.predecessors entry = [] ∧
      ∀ (i : Nat) (b : Block), f.blocks[i]? = some b → ∃ t, b.terminator = some t := by
  obtain ⟨marks, -, h⟩ := bind_eq_ok.1 h
  obtain ⟨hentry, hblocks⟩ := unless_eq_ok.1 h
  refine ⟨by simpa using hentry, fun i b hb => ?_⟩
  have hcheck := forM_eq_ok.1 hblocks (b, i) (List.mem_zipIdx_iff_getElem?.2 (by simpa using hb))
  cases hterm : b.terminator with
  | some t => exact ⟨t, rfl⟩
  | none => simp [checkBlock, hterm] at hcheck

/-- Validation accepts exactly the functions that keep the rules. -/
theorem validate_eq_ok_iff (hbound : ∀ v, f.Defines v → v.index < f.types.size) :
    f.validate = .ok () ↔ f.Valid := by
  -- No value is marked before the first instruction.
  have hempty : ∀ i, (Array.replicate f.types.size false).getD i false = false := by
    intro i
    simp only [Array.getD_eq_getD_getElem?, Array.getElem?_replicate]
    split <;> rfl
  obtain ⟨hiff, hmarks⟩ := markDefined_spec (Array.replicate f.types.size false) f.allInsts
    fun v hv => by simpa using hbound v hv
  have hblocks : ∀ marks : Array Bool,
      (∀ v : Value, marks.getD v.index false = true ↔ f.Defines v) →
      ((f.blocks.toList.zipIdx.forM fun p => f.checkBlock marks ⟨p.2⟩ p.1) = .ok () ↔
        ∀ i b, f.blocks[i]? = some b → f.ValidBlock ⟨i⟩ b) := by
    intro marks hm
    rw [forM_eq_ok]
    simp only [checkBlock_eq_ok hm, Prod.forall, List.mem_zipIdx_iff_getElem?,
      Array.getElem?_toList]
    exact forall_comm
  -- The marks in the end are those of all values with a definition.
  have hdefines : ∀ marks, markDefined (Array.replicate f.types.size false) f.allInsts = .ok marks →
      ∀ v : Value, marks.getD v.index false = true ↔ f.Defines v := by
    intro marks hmark v
    rw [hmarks marks hmark, hempty]
    constructor
    · rintro (h | ⟨w, hw, heq⟩)
      · cases h
      · obtain rfl : w = v := by
          obtain ⟨i⟩ := w
          obtain ⟨j⟩ := v
          simpa using heq
        exact hw
    · exact fun h => .inr ⟨v, h, rfl⟩
  unfold validate
  simp only [bind_eq_ok, unless_eq_ok, Bool.not_eq_true, Bool.not_eq_false', List.isEmpty_iff]
  constructor
  · rintro ⟨marks, hmark, hentry, hrest⟩
    exact ⟨(hiff.1 ⟨marks, hmark⟩).1, hentry, (hblocks marks (hdefines marks hmark)).1 hrest⟩
  · intro h
    obtain ⟨marks, hmark⟩ := hiff.2 ⟨h.once, fun v _ => hempty _⟩
    exact ⟨marks, hmark, h.entry, (hblocks marks (hdefines marks hmark)).2 h.block⟩

end Function

/-! ## Code in order -/

section

variable {c c' : Context} {ty : Ty} {inst : Inst} {code rest : List Inst}

/-- An instruction that reads values at hand with the types it needs keeps the type rules. -/
theorem Inst.Checks.checkTypes (h : inst.Checks c ty) (hfits : c.Fits f)
    (hdst : ∀ v, inst.dst? = some v → f.ty v = ty) : f.checkTypes inst = .ok () := by
  have hty : ∀ {v t}, c.Has v t → f.ty v = t := fun hv => hfits.ty_eq hv
  have hint : ∀ {t : Ty}, t.isFloat = false → t.isInt = true := fun {t} ht => by
    cases t <;> first | rfl | cases ht
  cases inst with
  | const => rfl
  | binary dst op lhs rhs =>
    obtain ⟨hl, hr, hop⟩ := h
    have hd := hdst dst rfl
    cases hcase : ty.isFloat <;>
      simp [Function.checkTypes, Function.checkSame, Function.checkIs, Expectation.test, hty hl,
        hty hr, hd, hop, hcase, hint]
  | unary dst op src =>
    obtain ⟨hs, hop⟩ := h
    have hd := hdst dst rfl
    cases hcase : ty.isFloat <;>
      simp [Function.checkTypes, Function.checkSame, Function.checkIs, Expectation.test, hty hs, hd,
        hop, hcase, hint]
  | icmp dst cond lhs rhs =>
    obtain ⟨rfl, t, hl, hr, ht⟩ := h
    simp [Function.checkTypes, Function.checkSame, Function.checkIs, Expectation.test, hty hl, hty hr,
      hdst dst rfl, ht]
  | fcmp dst cond lhs rhs =>
    obtain ⟨rfl, t, hl, hr, ht⟩ := h
    simp [Function.checkTypes, Function.checkSame, Function.checkIs, Expectation.test, hty hl, hty hr,
      hdst dst rfl, ht]
  | select dst cond ifTrue ifFalse =>
    obtain ⟨hcond, ht, hf⟩ := h
    simp [Function.checkTypes, Function.checkSame, Function.checkIs, Expectation.test, hty hcond,
      hty ht, hty hf, hdst dst rfl]
  | cast dst op src =>
    obtain ⟨t, hs, ht⟩ := h
    simp [Function.checkTypes, hty hs, hdst dst rfl, ht]
  | load dst width signed addr =>
    obtain ⟨ha, hi, hw⟩ := h
    simp [Function.checkTypes, Function.checkIs, Expectation.test, hty ha, hdst dst rfl, hi,
      Nat.not_lt_of_le hw]
  | store width addr value =>
    obtain ⟨ha, t, hv, hi, hw⟩ := h
    simp [Function.checkTypes, Function.checkIs, Expectation.test, hty ha, hty hv, hi,
      Nat.not_lt_of_le hw]
  | readGuest dst loc =>
    simp only [Inst.Checks] at h
    simp [Function.checkTypes, hdst dst rfl, h]
  | writeGuest loc value =>
    simp only [Inst.Checks] at h
    simp [Function.checkTypes, hty h]
  | phi => exact h.elim

/-- Code in order keeps the type rules. -/
theorem Code.checkTypes (h : Code c code c') (hfits : c'.Fits f) :
    ∀ inst ∈ code, f.checkTypes inst = .ok () := by
  induction h with
  | nil => exact fun _ hi => absurd hi List.not_mem_nil
  | grow _ _ _ ih => exact ih hfits
  | @define c _ inst _ ty dst checks tail ih =>
    have hpush : (c.push ty).Fits f := hfits.mono tail.le
    refine List.forall_mem_cons.2 ⟨checks.checkTypes (hpush.mono (c.le_push ty)) fun v hv => ?_, ih hfits⟩
    obtain rfl : c.next = v := Option.some.inj (dst.symm.trans hv)
    exact hpush.ty_next
  | effect dst checks tail ih =>
    refine List.forall_mem_cons.2 ⟨checks.checkTypes (hfits.mono tail.le) fun v hv => ?_, ih hfits⟩
    rw [dst] at hv
    cases hv

/-- An instruction of the code reads what was at hand before the code or is defined before it. -/
theorem Code.reads (h : Code c (code ++ inst :: rest) c') (hv : v ∈ inst.operands) :
    c.avail v ∨ v ∈ dsts code := by
  generalize hall : code ++ inst :: rest = all at h
  -- Induction on the code: an operand is at hand before the code, or defined by the part before its
  -- reader.
  induction h generalizing code with
  | nil => simp at hall
  | grow _ avail _ ih =>
    rw [← avail]
    exact ih hall
  | define ty dst checks _ ih =>
    cases code with
    | nil =>
      cases hall
      obtain ⟨t, ht⟩ := checks.has hv
      exact .inl ht.avail
    | cons first code =>
      cases hall
      rcases ih rfl with (hv | rfl) | hv
      · exact .inl hv
      · exact .inr (mem_dsts.2 ⟨_, List.mem_cons_self, dst⟩)
      · obtain ⟨i, hi, hd⟩ := mem_dsts.1 hv
        exact .inr (mem_dsts.2 ⟨i, List.mem_cons_of_mem _ hi, hd⟩)
  | effect dst checks _ ih =>
    cases code with
    | nil =>
      cases hall
      obtain ⟨t, ht⟩ := checks.has hv
      exact .inl ht.avail
    | cons first code =>
      cases hall
      rcases ih rfl with hv | hv
      · exact .inl hv
      · obtain ⟨i, hi, hd⟩ := mem_dsts.1 hv
        exact .inr (mem_dsts.2 ⟨i, List.mem_cons_of_mem _ hi, hd⟩)

end

end HotRegion.Ssa
