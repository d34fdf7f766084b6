import HotRegion.Proofs.Ssa.Built
import HotRegion.Ssa.Eval

/-!
# Values within their types

Values are carried as 64 bits whatever their type is. In a run of a validated function no value ever
has a bit that its type does not have: what an instruction computes is masked, was checked to have the
type of a value that was within it, or is a constant that the builder masked. So an operation that
takes all 64 bits of its operands computes what it would on words of the width of their type.

## Key results

- `stepInst_within`, `runBlock_within`: an instruction and a block keep all values within their types
- `Visits.within`: so does a run, on paths of any length
- `BinOp.eval_word`, `IntCC.eval_word`: unsigned operations are those on words
- `values_within`: what this comes to at every point of a run
-/

namespace HotRegion.Ssa

open Machine (Loc Width)

variable {ty : Ty} {a c bits : UInt64} {v w : Value} {inst : Inst} {f : Function}

/-! ## Widths -/

namespace Ty

/-- Every type has room for a bit. -/
theorem width_pos (ty : Ty) : 0 < ty.width := by cases ty <;> decide

/-- No type is wider than a value of the evaluator. -/
theorem width_le (ty : Ty) : ty.width ≤ 64 := by cases ty <;> decide

/-- The mask of a type has as many ones as the type has bits. -/
theorem toNat_mask (ty : Ty) : ty.mask.toNat = twoPow ty.width - 1 := by cases ty <;> rfl

/-- The bits are a number below two to the width of the type. -/
def Fits (ty : Ty) (bits : UInt64) : Prop := bits.toNat < twoPow ty.width

/-- Masking is taking the remainder. -/
theorem toNat_and_mask (ty : Ty) (bits : UInt64) :
    (bits &&& ty.mask).toNat = bits.toNat % twoPow ty.width := by
  rw [UInt64.toNat_and, toNat_mask]
  exact Nat.and_two_pow_sub_one_eq_mod _ _

/-- What is masked fits. -/
theorem fits_and_mask (ty : Ty) (bits : UInt64) : ty.Fits (bits &&& ty.mask) := by
  rw [Fits, toNat_and_mask]
  exact Nat.mod_lt _ (twoPow_pos _)

/-- Zero fits every type. -/
theorem fits_zero (ty : Ty) : ty.Fits 0 := twoPow_pos _

/-- A truth value fits every type. -/
theorem fits_bool (ty : Ty) (x : Bool) : ty.Fits x.toUInt64 := by
  unfold Fits
  cases x <;> cases ty <;> decide

/-- The word of the width of a type that bits are. -/
def word (ty : Ty) (bits : UInt64) : BitVec ty.width := BitVec.ofNat ty.width bits.toNat

/-- A value that fits is not cut. -/
theorem Fits.toNat_word (h : ty.Fits bits) : (ty.word bits).toNat = bits.toNat :=
  (BitVec.toNat_ofNat _ _).trans (Nat.mod_eq_of_lt h)

end Ty

/-! ## Frames -/

section

variable {σ : Type} {fr fr' : Frame σ}

/-- Every value has bits of its type alone. -/
def Frame.Within (f : Function) (fr : Frame σ) : Prop := ∀ v, (f.ty v).Fits (fr.get v)

/-- A value that is set is either the one that is read, or it makes no difference. -/
theorem Frame.get_set (fr : Frame σ) (v w : Value) (bits : UInt64) :
    (fr.set v bits).get w = bits ∧ w = v ∨ (fr.set v bits).get w = fr.get w := by
  obtain ⟨i⟩ := v
  obtain ⟨j⟩ := w
  by_cases hij : i = j
  · subst hij
    by_cases hi : i < fr.values.size
    · exact .inl ⟨by simp [get, set, hi], rfl⟩
    · exact .inr (by simp [get, set, hi])
  · exact .inr (by simp [get, set, hij])

/-- Assigning a value that fits keeps the values within their types. -/
theorem Frame.Within.set (h : fr.Within f) (hbits : (f.ty v).Fits bits) : (fr.set v bits).Within f := by
  intro w
  rcases fr.get_set v w bits with ⟨heq, rfl⟩ | heq
  · rwa [heq]
  · rw [heq]
    exact h w

/-- Assigning values that fit one after the other keeps the values within their types. -/
theorem Frame.Within.assign (h : fr.Within f) {l : List (Value × UInt64)}
    (hl : ∀ p ∈ l, (f.ty p.1).Fits p.2) : (l.foldl (fun fr p => fr.set p.1 p.2) fr).Within f := by
  induction l generalizing fr with
  | nil => exact h
  | cons p l ih =>
    obtain ⟨hp, hl⟩ := List.forall_mem_cons.1 hl
    exact ih (h.set hp) hl

/-- Before the first instruction all values are zero. -/
theorem Frame.within_zero (f : Function) (n : Nat) (m : σ) :
    Frame.Within f ⟨Array.replicate n 0, m⟩ := by
  intro v
  have hzero : (Array.replicate n (0 : UInt64)).getD v.index 0 = 0 := by
    simp only [Array.getD_eq_getD_getElem?, Array.getElem?_replicate]
    split <;> rfl
  rw [Frame.get, hzero]
  exact Ty.fits_zero _

end

/-! ## Type rules -/

namespace Function

/-- Validation compares the types of two values. -/
theorem checkSame_eq_ok : f.checkSame v w = .ok () ↔ f.ty v = f.ty w := by
  unfold checkSame
  split <;> simp_all

/-- The operands and the result of an operation on two values have one type. -/
theorem binary_types {op : BinOp} {dst lhs rhs : Value}
    (h : f.checkTypes (.binary dst op lhs rhs) = .ok ()) :
    f.ty lhs = f.ty dst ∧ f.ty rhs = f.ty dst := by
  obtain ⟨hsame, h⟩ := check_bind_eq_ok.1 h
  obtain ⟨hdst, -⟩ := check_bind_eq_ok.1 h
  rw [checkSame_eq_ok] at hsame hdst
  exact ⟨hdst.symm, hsame.symm.trans hdst.symm⟩

/-- An operation on one value keeps its type. -/
theorem unary_types {op : UnOp} {dst src : Value} (h : f.checkTypes (.unary dst op src) = .ok ()) :
    f.ty src = f.ty dst := by
  obtain ⟨hsame, -⟩ := check_bind_eq_ok.1 h
  exact (checkSame_eq_ok.1 hsame).symm

/-- The sides of a comparison have one type. -/
theorem icmp_types {cond : IntCC} {dst lhs rhs : Value}
    (h : f.checkTypes (.icmp dst cond lhs rhs) = .ok ()) : f.ty rhs = f.ty lhs := by
  obtain ⟨hsame, -⟩ := check_bind_eq_ok.1 h
  exact (checkSame_eq_ok.1 hsame).symm

/-- Both ways of a choice have the type of the result. -/
theorem select_types {dst cond ifTrue ifFalse : Value}
    (h : f.checkTypes (.select dst cond ifTrue ifFalse) = .ok ()) :
    f.ty ifTrue = f.ty dst ∧ f.ty ifFalse = f.ty dst := by
  obtain ⟨-, h⟩ := check_bind_eq_ok.1 h
  obtain ⟨hsame, hdst⟩ := check_bind_eq_ok.1 h
  rw [checkSame_eq_ok] at hsame hdst
  exact ⟨hdst.symm, hsame.symm.trans hdst.symm⟩

/-- A read of a register has the type of the register. -/
theorem readGuest_type {dst : Value} {loc : Loc} (h : f.checkTypes (.readGuest dst loc) = .ok ()) :
    f.ty dst = .ofLoc loc := by
  simp only [checkTypes] at h
  split at h
  · assumption
  · cases h

/-- A phi has the type of each of its incoming values. -/
theorem phi_types {dst : Value} {incoming : List (BlockId × Value)}
    (h : f.checkTypes (.phi dst incoming) = .ok ()) {p : BlockId × Value} (hp : p ∈ incoming) :
    f.ty p.2 = f.ty dst :=
  (checkSame_eq_ok.1 (forM_eq_ok.1 h p hp)).symm

/-- The constants of a function are within their types. -/
def ConstsFit (f : Function) : Prop :=
  ∀ dst bits, .const dst bits ∈ f.allInsts → (f.ty dst).Fits bits

end Function

/-! ## Constants -/

namespace Builder

variable {b b' : Builder}

/-- A call that makes a constant makes one within its type. -/
theorem constsFit_edit {targets : List BlockId} (h : b.function.ConstsFit) (honce : b.Once)
    (hedit : Edit b targets b') : b'.function.ConstsFit := by
  intro dst bits hmem
  have hdst : ∀ {insts : List Inst}, .const dst bits ∈ insts → dst ∈ dsts insts := fun hmem =>
    mem_dsts.2 ⟨_, hmem, rfl⟩
  -- A constant is one that was there before, or it is new and was masked when it was made.
  cases hedit.adds honce.current with
  | nothing htypes hinsts =>
    rw [Function.ty, htypes]
    refine h dst bits (const_mem_map_bare.1 ?_)
    rw [← hinsts]
    exact const_mem_map_bare.2 hmem
  | effect inst htypes hinst hinsts =>
    rw [Function.ty, htypes]
    rcases List.mem_cons.1 (hinsts.mem_iff.1 hmem) with rfl | hmem
    · cases hinst
    · exact h dst bits hmem
  | value ty inst htypes hinst hbits hinsts =>
    rw [Function.ty, htypes, Array.getD_eq_getD_getElem?]
    rcases List.mem_cons.1 (hinsts.mem_iff.1 hmem) with rfl | hmem
    · cases hinst
      rw [Array.getElem?_push_size, Option.getD_some, ← hbits _ _ rfl]
      exact ty.fits_and_mask bits
    · have hlt := honce.bounded dst (hdst hmem)
      rw [Array.getElem?_push_lt hlt, ← Array.getElem?_eq_getElem hlt, ← Array.getD_eq_getD_getElem?]
      exact h dst bits hmem

/-- The constants of a built function are within their types. -/
theorem constsFit_of_calls {name : String} {calls : List Call} (h : ofCalls name calls = .ok b) :
    b.function.ConstsFit :=
  (invariant_of_calls (P := fun b => b.Once ∧ b.function.ConstsFit)
    (fun name => ⟨once_new name, nofun⟩)
    (fun _ _ _ hb hedit => ⟨hb.1.edit hedit, constsFit_edit hb.2 hb.1 hedit⟩) h).2

end Builder

/-! ## Steps -/

/-- What a run needs of a function to keep values within their types. -/
structure Function.Typed (f : Function) : Prop where
  consts : f.ConstsFit
  types : ∀ inst ∈ f.allInsts, f.checkTypes inst = .ok ()

/-- A function made by calls of the builder has a type for every target if it is valid. -/
theorem Builder.typed_of_calls {name : String} {calls : List Builder.Call} {b : Builder}
    (hbuilt : Builder.ofCalls name calls = .ok b) (hvalid : b.function.validate = .ok ()) :
    b.function.Typed := by
  refine ⟨constsFit_of_calls hbuilt, fun inst hinst => ?_⟩
  obtain ⟨i, blk, hblk, hmem⟩ := Function.mem_allInsts.1 hinst
  exact (((Function.validate_eq_ok_iff (bounded_of_calls hbuilt)).1 hvalid).block i blk hblk).types
    inst hmem

section

variable {σ : Type} {fr fr' : Frame σ} {b : Block} {id : BlockId} {pred : Option BlockId}

/-- The instructions of a block are instructions of the function. -/
theorem Block.mem_allInsts (hb : f.block? id = some b) (hmem : inst ∈ b.insts.toList) :
    inst ∈ f.allInsts := Function.mem_allInsts.2 ⟨id.index, b, hb, hmem⟩

variable [GuestMachine σ]

/-- An instruction keeps all values within their types. -/
theorem stepInst_within (hf : f.Typed) (hinst : inst ∈ f.allInsts) (h : fr.Within f)
    (hstep : stepInst f fr inst = .ok fr') : fr'.Within f := by
  have hrule := hf.types inst hinst
  -- What is computed is masked or a truth value. What is only passed on has the type of the result, as
  -- the type rules say.
  cases inst with
  | const dst bits =>
    cases hstep
    exact h.set (hf.consts dst bits hinst)
  | binary dst op lhs rhs =>
    cases hstep
    exact h.set (Ty.fits_and_mask _ _)
  | unary dst op src =>
    cases hstep
    exact h.set (Ty.fits_and_mask _ _)
  | icmp dst cond lhs rhs =>
    cases hstep
    exact h.set (Ty.fits_bool _ _)
  | fcmp dst cond lhs rhs =>
    cases hstep
    exact h.set (Ty.fits_bool _ _)
  | select dst cond ifTrue ifFalse =>
    cases hstep
    obtain ⟨htrue, hfalse⟩ := Function.select_types hrule
    refine h.set ?_
    split
    · exact htrue ▸ h ifTrue
    · exact hfalse ▸ h ifFalse
  | cast dst op src =>
    cases hstep
    exact h.set (Ty.fits_and_mask _ _)
  | load dst width signed addr =>
    cases hstep
    exact h.set (Ty.fits_and_mask _ _)
  | store width addr value =>
    cases hstep
    exact h
  | readGuest dst loc =>
    cases hstep
    refine h.set ?_
    rw [Function.readGuest_type hrule]
    exact Ty.fits_and_mask _ _
  | writeGuest loc value =>
    cases hstep
    exact h
  | phi dst incoming => cases hstep

/-- The code of a block keeps the values within their types. -/
theorem foldlM_within (hf : f.Typed) {insts : List Inst} (hinsts : ∀ inst ∈ insts, inst ∈ f.allInsts)
    (h : fr.Within f) (hrun : insts.foldlM (stepInst f) fr = .ok fr') : fr'.Within f := by
  induction insts generalizing fr with
  | nil =>
    cases hrun
    exact h
  | cons inst insts ih =>
    rw [List.foldlM_cons, bind_eq_ok] at hrun
    obtain ⟨fr₁, hstep, hrun⟩ := hrun
    obtain ⟨hinst, hinsts⟩ := List.forall_mem_cons.1 hinsts
    exact ih hinsts (stepInst_within hf hinst h hstep) hrun

omit [GuestMachine σ] in
/-- What a phi takes is within its type: it is the value of an input that has this type. -/
theorem phiValue_fits (hf : f.Typed) (hinst : inst ∈ f.allInsts) (h : fr.Within f)
    {p : Value × UInt64} (hp : phiValue fr pred inst = .ok p) : (f.ty p.1).Fits p.2 := by
  cases inst with
  | phi dst incoming =>
    cases pred with
    | none => cases hp
    | some from_ =>
      simp only [phiValue] at hp
      split at hp
      · next k value hfind =>
        cases hp
        rw [← Function.phi_types (hf.types _ hinst) (List.mem_of_find?_eq_some hfind)]
        exact h value
      · cases hp
  | _ =>
    cases hp
    exact Ty.fits_zero _

/-- The results of checks in sequence come from the elements. -/
theorem mapM_mem {ε α β : Type} {g : α → Except ε β} {l : List α} {ys : List β}
    (h : l.mapM g = .ok ys) : ∀ y ∈ ys, ∃ a ∈ l, g a = .ok y := by
  induction l generalizing ys with
  | nil =>
    cases h
    exact fun y hy => absurd hy List.not_mem_nil
  | cons a l ih =>
    rw [List.mapM_cons, bind_eq_ok] at h
    obtain ⟨y, hy, h⟩ := h
    obtain ⟨ys', hys, h⟩ := bind_eq_ok.1 h
    cases h
    refine List.forall_mem_cons.2 ⟨⟨a, List.mem_cons_self, hy⟩, fun z hz => ?_⟩
    obtain ⟨c, hc, hgc⟩ := ih hys z hz
    exact ⟨c, List.mem_cons_of_mem _ hc, hgc⟩

omit [GuestMachine σ] in
/-- All that the phis of a block take is within their types. -/
theorem phiValues_fit (hf : f.Typed) (hb : f.block? id = some b) (h : fr.Within f)
    {assignments : List (Value × UInt64)} (hphis : b.phis.mapM (phiValue fr pred) = .ok assignments) :
    ∀ p ∈ assignments, (f.ty p.1).Fits p.2 := by
  intro p hp
  obtain ⟨inst, hinst, hval⟩ := mapM_mem hphis p hp
  refine phiValue_fits hf (Block.mem_allInsts hb ?_) h hval
  rw [b.insts_eq]
  exact List.mem_append_left _ hinst

omit [GuestMachine σ] in
/-- Entering a block, phis included, keeps the values within their types. -/
theorem enterBlock_within (hf : f.Typed) (hb : f.block? id = some b) (h : fr.Within f)
    (henter : enterBlock fr pred b = .ok fr') : fr'.Within f := by
  obtain ⟨assignments, hphis, heq⟩ := bind_eq_ok.1 henter
  cases heq
  exact h.assign (phiValues_fit hf hb h hphis)

/-- The body of a block is a part of the function. -/
theorem Block.mem_of_mem_body (hb : f.block? id = some b) (hmem : inst ∈ b.body) :
    inst ∈ f.allInsts := by
  refine Block.mem_allInsts hb ?_
  rw [b.insts_eq]
  exact List.mem_append_right _ hmem

/-- A block keeps all values within their types. -/
theorem runBlock_within (hf : f.Typed) {next : Next} (h : fr.Within f)
    (hrun : runBlock f fr pred id = .ok (fr', next)) : fr'.Within f := by
  cases hb : f.block? id with
  | none =>
    simp only [runBlock, hb] at hrun
    cases hrun
  | some b =>
    simp only [runBlock, hb] at hrun
    obtain ⟨fr₁, henter, hrun⟩ := bind_eq_ok.1 hrun
    obtain ⟨fr₂, hbody, hrun⟩ := bind_eq_ok.1 hrun
    have h₂ := foldlM_within hf (fun inst hinst => Block.mem_of_mem_body hb hinst)
      (enterBlock_within hf hb h henter) hbody
    split at hrun
    · cases hrun
    · cases hrun
      exact h₂

end

/-! ## Runs -/

section

variable {σ : Type} [GuestMachine σ] {m m' : σ} {fr : Frame σ} {id : BlockId} {pred : Option BlockId}

/-- The run of a function against a machine comes to block `id` from `pred`, with these values. -/
inductive Visits (f : Function) (m : σ) : Frame σ → Option BlockId → BlockId → Prop where
  | start : Visits f m ⟨Array.replicate f.types.size 0, m⟩ none Function.entry
  | next {fr fr' : Frame σ} {pred : Option BlockId} {id target : BlockId}
    (before : Visits f m fr pred id) (hrun : runBlock f fr pred id = .ok (fr', .block target)) :
    Visits f m fr' (some id) target

/-- What is left to run at a visited block, with some fuel, is left of the whole run. -/
theorem Visits.runFrom_eq (h : Visits f m fr pred id) :
    ∃ blocks, ∀ fuel, run (blocks + fuel) f m = runFrom f fuel fr pred id := by
  induction h with
  | start => exact ⟨0, fun fuel => by rw [Nat.zero_add]; rfl⟩
  | next before hrun ih =>
    obtain ⟨blocks, ih⟩ := ih
    exact ⟨blocks + 1, fun fuel => by rw [Nat.add_right_comm, Nat.add_assoc, ih, runFrom, hrun]⟩

/-- At every block that a run comes to, all values are within their types. -/
theorem Visits.within (hf : f.Typed) (h : Visits f m fr pred id) : fr.Within f := by
  induction h with
  | start => exact Frame.within_zero f _ m
  | next before hrun ih => exact runBlock_within hf ih hrun

/-- A point of a run: the values that it has there, and the instruction that runs next if any. -/
inductive Point (f : Function) (m : σ) : Frame σ → Option Inst → Prop where
  | enter {fr : Frame σ} {pred : Option BlockId} {id : BlockId} (before : Visits f m fr pred id) :
    Point f m fr none
  /-- Between the assignments to the phis of a block. -/
  | assign {fr : Frame σ} {pred : Option BlockId} {id : BlockId} {b : Block}
    (done rest : List (Value × UInt64)) (before : Visits f m fr pred id) (hb : f.block? id = some b)
    (hphis : b.phis.mapM (phiValue fr pred) = .ok (done ++ rest)) :
    Point f m (done.foldl (fun fr p => fr.set p.1 p.2) fr) none
  /-- Between the other instructions of a block. -/
  | body {fr fr₁ fr₂ : Frame σ} {pred : Option BlockId} {id : BlockId} {b : Block}
    (done rest : List Inst) (before : Visits f m fr pred id) (hb : f.block? id = some b)
    (henter : enterBlock fr pred b = .ok fr₁) (hbody : b.body = done ++ rest)
    (hdone : done.foldlM (stepInst f) fr₁ = .ok fr₂) : Point f m fr₂ rest.head?

/-- At every point of a run all values are within their types, and the instruction that runs next is
one of the function. -/
theorem Point.within (hf : f.Typed) {next : Option Inst} (h : Point f m fr next) :
    fr.Within f ∧ ∀ inst, next = some inst → inst ∈ f.allInsts := by
  cases h with
  | enter before => exact ⟨before.within hf, nofun⟩
  | assign done rest before hb hphis =>
    have hfit := phiValues_fit hf hb (before.within hf) hphis
    exact ⟨(before.within hf).assign fun p hp => hfit p (List.mem_append_left _ hp), nofun⟩
  | body done rest before hb henter hbody hdone =>
    have hmem : ∀ inst ∈ done ++ rest, inst ∈ f.allInsts := fun inst hinst =>
      Block.mem_of_mem_body hb (hbody ▸ hinst)
    refine ⟨foldlM_within hf (fun inst hinst => hmem inst (List.mem_append_left _ hinst))
      (enterBlock_within hf hb (before.within hf) henter) hdone, fun inst hinst => ?_⟩
    exact hmem inst (List.mem_append_right _ (List.mem_of_mem_head? hinst))

end

/-! ## Operations on words -/

/-- The unsigned operations on words of any width. -/
def BinOp.word? : BinOp → Option ((width : Nat) → BitVec width → BitVec width → BitVec width)
  | .udiv => some fun _ x y => x / y
  | .urem => some fun _ x y => x % y
  | .shl => some fun width x y => x <<< (y.toNat % width)
  | .lshr => some fun width x y => x >>> (y.toNat % width)
  | _ => none

/-- Equality and the unsigned comparisons on words of any width. -/
def IntCC.word? : IntCC → Option ((width : Nat) → BitVec width → BitVec width → Bool)
  | .eq => some fun _ x y => x == y
  | .ne => some fun _ x y => x != y
  | .ult => some fun _ x y => x < y
  | .ule => some fun _ x y => x ≤ y
  | .ugt => some fun _ x y => y < x
  | .uge => some fun _ x y => y ≤ x
  | _ => none

/-- A shift amount is taken modulo the width. -/
theorem toNat_shiftAmount (ty : Ty) (c : UInt64) :
    (shiftAmount ty.width c).toNat = c.toNat % ty.width := by
  rw [shiftAmount, UInt64.toNat_mod,
    UInt64.toNat_ofNat_of_lt' (Nat.lt_of_le_of_lt ty.width_le (by decide))]

/-- A shift amount is below the width of a value of the evaluator, where it is taken modulo that
again. -/
theorem toNat_shiftAmount_mod (ty : Ty) (c : UInt64) :
    (shiftAmount ty.width c).toNat % 64 = c.toNat % ty.width := by
  rw [toNat_shiftAmount]
  exact Nat.mod_eq_of_lt (Nat.lt_of_lt_of_le (Nat.mod_lt _ ty.width_pos) ty.width_le)

/-- On values within their type an unsigned operation is the one on words. -/
theorem BinOp.eval_word {op : BinOp} {g : (width : Nat) → BitVec width → BitVec width → BitVec width}
    (h : op.word? = some g) (ha : ty.Fits a) (hc : ty.Fits c) :
    (op.eval ty a c).toNat = (g ty.width (ty.word a) (ty.word c)).toNat := by
  -- A result that is not above the first operand needs no mask.
  have hmod : ∀ {n : Nat}, n ≤ a.toNat → n % twoPow ty.width = n := fun hn =>
    Nat.mod_eq_of_lt (Nat.lt_of_le_of_lt hn ha)
  cases op with
  | udiv =>
    cases h
    -- Words have the same quotient by zero.
    have hzero : (if c = 0 then 0 else a / c) = a / c := by
      split
      · next hc => rw [hc, UInt64.div_zero]
      · rfl
    simp only [BinOp.eval, hzero, Ty.toNat_and_mask, UInt64.toNat_div, BitVec.toNat_udiv,
      ha.toNat_word, hc.toNat_word]
    exact hmod (Nat.div_le_self _ _)
  | urem =>
    cases h
    have hzero : (if c = 0 then a else a % c) = a % c := by
      split
      · next hc => rw [hc, UInt64.mod_zero]
      · rfl
    simp only [BinOp.eval, hzero, Ty.toNat_and_mask, UInt64.toNat_mod, BitVec.toNat_umod,
      ha.toNat_word, hc.toNat_word]
    exact hmod (Nat.mod_le _ _)
  | shl =>
    cases h
    simp only [BinOp.eval, Ty.toNat_and_mask, UInt64.toNat_shiftLeft, BitVec.toNat_shiftLeft,
      ha.toNat_word, hc.toNat_word, toNat_shiftAmount_mod]
    -- What is shifted out of the 64 bits is out of the type too.
    exact Nat.mod_mod_of_dvd _ (twoPow_dvd ty.width_le)
  | lshr =>
    cases h
    simp only [BinOp.eval, Ty.toNat_and_mask, UInt64.toNat_shiftRight, BitVec.toNat_ushiftRight,
      ha.toNat_word, hc.toNat_word, toNat_shiftAmount_mod]
    exact hmod (Nat.shiftRight_le _ _)
  | _ => cases h

/-- On values within their type equality and an unsigned comparison are those on words. -/
theorem IntCC.eval_word {cond : IntCC} {g : (width : Nat) → BitVec width → BitVec width → Bool}
    (h : cond.word? = some g) (ha : ty.Fits a) (hc : ty.Fits c) :
    cond.eval ty a c = g ty.width (ty.word a) (ty.word c) := by
  -- In range, the order of the bits is the order of the words.
  have heq : a = c ↔ ty.word a = ty.word c := by
    rw [← UInt64.toNat_inj, ← BitVec.toNat_inj, ha.toNat_word, hc.toNat_word]
  have hlt : ∀ {x y : UInt64}, ty.Fits x → ty.Fits y → (x < y ↔ ty.word x < ty.word y) :=
    fun hx hy => by rw [UInt64.lt_iff_toNat_lt, BitVec.lt_def, hx.toNat_word, hy.toNat_word]
  have hle : ∀ {x y : UInt64}, ty.Fits x → ty.Fits y → (x ≤ y ↔ ty.word x ≤ ty.word y) :=
    fun hx hy => by rw [UInt64.le_iff_toNat_le, BitVec.le_def, hx.toNat_word, hy.toNat_word]
  cases cond with
  | eq =>
    cases h
    exact decide_eq_decide.2 heq
  | ne =>
    cases h
    exact congrArg (!·) (decide_eq_decide.2 heq)
  | ult =>
    cases h
    exact decide_eq_decide.2 (hlt ha hc)
  | ule =>
    cases h
    exact decide_eq_decide.2 (hle ha hc)
  | ugt =>
    cases h
    exact decide_eq_decide.2 (hlt hc ha)
  | uge =>
    cases h
    exact decide_eq_decide.2 (hle hc ha)
  | _ => cases h

/-- A value within a narrow type has at least as many leading zeros as the type has bits less. -/
theorem le_leadingZeros (ha : ty.Fits a) : spareBits ty.width ≤ leadingZeros a := by
  have hspare : (spareBits ty.width).toNat = 64 - ty.width := by cases ty <;> rfl
  rw [UInt64.le_iff_toNat_le, hspare]
  unfold leadingZeros
  split
  · exact Nat.sub_le _ _
  · next hne =>
    have hlog : a.toNat.log2 < ty.width :=
      (Nat.log2_lt fun h => hne (UInt64.toNat_inj.1 h)).2 ha
    have hle := ty.width_le
    have hlog2 : a.log2.toNat = a.toNat.log2 := rfl
    have hle63 : a.log2 ≤ 63 := UInt64.le_iff_toNat_le.2 (by
      rw [hlog2]
      change _ ≤ 63
      omega)
    rw [UInt64.toNat_sub_of_le _ _ hle63, hlog2]
    change _ ≤ 63 - _
    omega

/-! ## Points of a run -/

/-- The amounts of the shifts that the evaluator makes when it runs an instruction. -/
def Inst.shifts {σ : Type} (f : Function) (fr : Frame σ) : Inst → List UInt64
  | .binary dst _ _ rhs =>
    spareBits (f.ty dst).width :: shiftAmount (f.ty dst).width (fr.get rhs) ::
      maskShifts (f.ty dst).width
  | .unary dst _ _ => signBit (f.ty dst).width :: maskShifts (f.ty dst).width
  | .icmp _ _ lhs _ => [spareBits (f.ty lhs).width]
  | .cast dst op src =>
    (match op with
      | .sext | .sitofp => [spareBits (f.ty src).width]
      | .fptosi => [signBit (f.ty dst).width]
      | _ => []) ++ maskShifts (f.ty dst).width
  | .load dst width signed _ =>
    (if signed then [spareBits width.bits] else []) ++ maskShifts (f.ty dst).width
  | .store width _ _ => maskShifts width.bits
  | .readGuest _ loc => maskShifts (Ty.ofLoc loc).width
  | _ => []

/-- What an instruction needs of the values it is run with. -/
structure Inst.Sound {σ : Type} (f : Function) (fr : Frame σ) (inst : Inst) : Prop where
  shifts : ∀ n ∈ inst.shifts f fr, n < 64
  /-- The zeros above the type are among those counted. -/
  clz : ∀ dst src, inst = .unary dst .clz src →
    spareBits (f.ty dst).width ≤ leadingZeros (fr.get src)
  /-- An unsigned operation is the one on words of the width of its operands. -/
  binary : ∀ dst op lhs rhs g, inst = .binary dst op lhs rhs → op.word? = some g →
    (op.eval (f.ty dst) (fr.get lhs) (fr.get rhs)).toNat =
      (g (f.ty lhs).width ((f.ty lhs).word (fr.get lhs)) ((f.ty lhs).word (fr.get rhs))).toNat
  icmp : ∀ dst cond lhs rhs g, inst = .icmp dst cond lhs rhs → cond.word? = some g →
    cond.eval (f.ty lhs) (fr.get lhs) (fr.get rhs) =
      g (f.ty lhs).width ((f.ty lhs).word (fr.get lhs)) ((f.ty lhs).word (fr.get rhs))

section

variable {σ : Type} {fr : Frame σ}

/-- The shifts that make the mask are by less than a value of the evaluator has bits. -/
theorem maskShifts_lt {width : Nat} (h : width ≤ 64) : ∀ n ∈ maskShifts width, n < 64 := by
  unfold maskShifts
  split
  · exact fun n hn => absurd hn List.not_mem_nil
  · next hne =>
    refine List.forall_mem_singleton.2 (UInt64.lt_iff_toNat_lt.2 ?_)
    rw [UInt64.toNat_ofNat_of_lt' (Nat.lt_of_le_of_lt h (by decide))]
    exact Nat.lt_of_le_of_ne h hne

/-- No instruction shifts by 64 or more. -/
theorem shifts_in_range (f : Function) (fr : Frame σ) (inst : Inst) :
    ∀ n ∈ inst.shifts f fr, n < 64 := by
  have hmask : ∀ ty : Ty, ∀ n ∈ maskShifts ty.width, n < 64 := fun ty => maskShifts_lt ty.width_le
  have hspare : ∀ ty : Ty, spareBits ty.width < 64 := by
    intro ty
    cases ty <;> decide
  have hsign : ∀ ty : Ty, signBit ty.width < 64 := by
    intro ty
    cases ty <;> decide
  have hamount : ∀ (ty : Ty) (c : UInt64), shiftAmount ty.width c < 64 := by
    intro ty c
    rw [UInt64.lt_iff_toNat_lt, toNat_shiftAmount]
    exact Nat.lt_of_lt_of_le (Nat.mod_lt _ ty.width_pos) ty.width_le
  cases inst with
  | binary dst op lhs rhs =>
    exact List.forall_mem_cons.2 ⟨hspare _, List.forall_mem_cons.2 ⟨hamount _ _, hmask _⟩⟩
  | unary dst op src => exact List.forall_mem_cons.2 ⟨hsign _, hmask _⟩
  | icmp dst cond lhs rhs => exact List.forall_mem_singleton.2 (hspare _)
  | cast dst op src =>
    refine List.forall_mem_append.2 ⟨?_, hmask _⟩
    cases op with
    | sext => exact List.forall_mem_singleton.2 (hspare _)
    | sitofp => exact List.forall_mem_singleton.2 (hspare _)
    | fptosi => exact List.forall_mem_singleton.2 (hsign _)
    | _ => exact fun n hn => absurd hn List.not_mem_nil
  | load dst width signed addr =>
    refine List.forall_mem_append.2 ⟨?_, hmask _⟩
    cases signed with
    | false => exact fun n hn => absurd hn List.not_mem_nil
    | true =>
      have hspare : spareBits width.bits < 64 := by cases width <;> decide
      exact List.forall_mem_singleton.2 hspare
  | store width addr value =>
    have hle : width.bits ≤ 64 := by cases width <;> decide
    exact maskShifts_lt hle
  | readGuest dst loc => exact hmask _
  | _ => exact fun n hn => absurd hn List.not_mem_nil

/-- An instruction that keeps the type rules is sound with values within their types. -/
theorem Frame.Within.sound (h : fr.Within f) (hrule : f.checkTypes inst = .ok ()) :
    inst.Sound f fr where
  shifts := shifts_in_range f fr inst
  clz := by
    rintro dst src rfl
    rw [← Function.unary_types hrule]
    exact le_leadingZeros (h src)
  binary := by
    rintro dst op lhs rhs g rfl hg
    obtain ⟨hlhs, hrhs⟩ := Function.binary_types hrule
    have hfit := h rhs
    rw [hrhs, ← hlhs] at hfit
    rw [← hlhs]
    exact BinOp.eval_word hg (h lhs) hfit
  icmp := by
    rintro dst cond lhs rhs g rfl hg
    have hfit := h rhs
    rw [Function.icmp_types hrule] at hfit
    exact IntCC.eval_word hg (h lhs) hfit

end

/-- At every point of every run of a validated function that a builder made, whatever the machine
answers, each value has only bits of its type, and so no shift of the next instruction is by 64 or more,
the leading zeros it counts are enough for its type, and its unsigned operations are those on words of
the width of their operands. -/
theorem values_within_types {σ : Type} [GuestMachine σ] {name : String} {calls : List Builder.Call}
    {b : Builder} (hbuilt : Builder.ofCalls name calls = .ok b) (hvalid : b.function.validate = .ok ())
    (m : σ) {fr : Frame σ} {next : Option Inst} (hpoint : Point b.function m fr next) :
    (∀ v, (fr.get v).toNat < twoPow (b.function.ty v).width) ∧
      ∀ inst, next = some inst → inst.Sound b.function fr := by
  have hf := Builder.typed_of_calls hbuilt hvalid
  obtain ⟨hwithin, hnext⟩ := hpoint.within hf
  exact ⟨hwithin, fun inst hinst => hwithin.sound (hf.types inst (hnext inst hinst))⟩

/-- A machine that answers every access with 64 set bits. -/
structure Saturated where

instance : GuestMachine Saturated where
  readLoc _ _ := 0xffffffffffffffff
  writeLoc m _ _ := m
  load _ _ _ := 0xffffffffffffffff
  store m _ _ _ := m

/-- The calls that make a loop that shifts a register down by what it loads. -/
def Builder.shiftLoop : List Builder.Call :=
  [.readGuest (.gpr 4), .declareBlock "loop", .declareBlock "done", .terminate (.jump ⟨1⟩),
    .startBlock ⟨1⟩, .phi .i32, .load .byte true ⟨1⟩ .i32, .binary .lshr ⟨1⟩ ⟨2⟩, .unary .clz ⟨3⟩,
    .icmp .ult ⟨3⟩ ⟨4⟩, .addIncoming ⟨1⟩ ⟨0⟩ ⟨0⟩, .addIncoming ⟨1⟩ ⟨1⟩ ⟨3⟩,
    .terminate (.branch ⟨5⟩ ⟨1⟩ ⟨2⟩ none), .startBlock ⟨2⟩, .terminate (.exit ⟨3⟩ .fallthrough)]

/-- Before the shift of the second round all values are within their types, though the machine set
all 64 bits of the register and of the byte that was loaded. -/
theorem shift_loop_within_types : ∃ b, Builder.ofCalls "f" Builder.shiftLoop = .ok b ∧
    b.function.validate = .ok () ∧
    ∃ fr : Frame Saturated, Point b.function ⟨⟩ fr (some (.binary ⟨3⟩ .lshr ⟨1⟩ ⟨2⟩)) ∧
      fr.values = #[0xffffffff, 1, 0xffffffff, 1, 31, 1] ∧
      (∀ v, (fr.get v).toNat < twoPow (b.function.ty v).width) ∧
      Inst.Sound b.function fr (.binary ⟨3⟩ .lshr ⟨1⟩ ⟨2⟩) := by
  obtain ⟨b, hb⟩ : ∃ b, b = (Builder.ofCalls "f" Builder.shiftLoop).toOption.get rfl := ⟨_, rfl⟩
  have hbuilt : Builder.ofCalls "f" Builder.shiftLoop = .ok b := by rw [hb]; rfl
  have hvalid : b.function.validate = .ok () := by rw [hb]; rfl
  have hfirst : Visits b.function (⟨⟩ : Saturated) ⟨#[0xffffffff, 0, 0, 0, 0, 0], ⟨⟩⟩ (some ⟨0⟩) ⟨1⟩ :=
    Visits.start.next (by rw [hb]; rfl)
  have hsecond : Visits b.function (⟨⟩ : Saturated)
      ⟨#[0xffffffff, 0xffffffff, 0xffffffff, 1, 31, 1], ⟨⟩⟩ (some ⟨1⟩) ⟨1⟩ :=
    hfirst.next (by rw [hb]; rfl)
  have hpoint : Point b.function (⟨⟩ : Saturated) ⟨#[0xffffffff, 1, 0xffffffff, 1, 31, 1], ⟨⟩⟩
      (some (.binary ⟨3⟩ .lshr ⟨1⟩ ⟨2⟩)) :=
    .body [.load ⟨2⟩ .byte true ⟨1⟩] [.binary ⟨3⟩ .lshr ⟨1⟩ ⟨2⟩, .unary ⟨4⟩ .clz ⟨3⟩,
      .icmp ⟨5⟩ .ult ⟨3⟩ ⟨4⟩] hsecond (by rw [hb]; rfl) rfl rfl (by rw [hb]; rfl)
  obtain ⟨hfits, hsound⟩ := values_within_types hbuilt hvalid _ hpoint
  exact ⟨b, hbuilt, hvalid, _, hpoint, rfl, hfits, hsound _ rfl⟩

end HotRegion.Ssa
