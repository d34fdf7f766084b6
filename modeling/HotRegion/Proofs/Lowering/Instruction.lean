import HotRegion.Proofs.Analysis.Constant
import HotRegion.Proofs.Lowering.Table
import HotRegion.Proofs.Machine.Dependence

/-!
# Lowering instructions

The code for an instruction does to the values of the register table what the instruction does to
the registers of the guest.

## Key results

- `yields_lower`: the code for an instruction that does not transfer control
- `gives_lowerCondition`: the truth value that decides a branch
-/

namespace HotRegion.Lowering

open Isa Analysis Ssa
open Machine (State execute)
open Region (Tracked)

variable {s s' : Site} {t t' : RegTable} {V : Value → UInt64} {g : State} {v : Value}
  {insn : Instr} {addr : UInt32} {m m' : Watched}

/-! ## Integer operations -/

section

variable {rs rt rd : Value}

/-- An operation that computes a function of two words. -/
theorem gives_binaryWord {op : BinOp} {f : UInt32 → UInt32 → UInt32} (hrs : s.Has rs .i32)
    (hrt : s.Has rt .i32) (hint : op.isFloat = false)
    (heval : ∀ a b : UInt32, op.eval .i32 a.toUInt64 b.toUInt64 = (f a b).toUInt64) :
    Gives s (liftM (Build.binary op rs rt)) .i32 fun V _ y => ∀ a b : UInt32,
      V rs = a.toUInt64 → V rt = b.toUInt64 → y = (f a b).toUInt64 := by
  refine (gives_binary hrs hrt hint).imp fun V m y hy a b ha hb => ?_
  rw [hy, ha, hb, heval]

/-- The code of a shift computes what the guest's shift does. -/
theorem gives_shift {op : ShiftOp} (hrs : s.Has rs .i32) (hrt : s.Has rt .i32) :
    Gives s (liftM (Build.binary (shiftOp op) rt rs)) .i32 fun V _ y => ∀ a b : UInt32,
      V rt = a.toUInt64 → V rs = b.toUInt64 → y = (op.eval a b).toUInt64 := by
  cases op
  · exact gives_binaryWord hrt hrs rfl eval_shl
  · exact gives_binaryWord hrt hrs rfl eval_lshr
  · exact gives_binaryWord hrt hrs rfl eval_ashr

/-- The code of a comparison gives the word of its truth value. -/
theorem gives_compareWord {cond : IntCC} (hrs : s.Has rs .i32) (hrt : s.Has rt .i32) :
    Gives s (liftM (compareWord cond rs rt)) .i32 fun V _ y =>
      y = (wordOfBool (cond.eval .i32 (V rs) (V rt))).toUInt64 := by
  simp only [compareWord, liftM_bind]
  refine Gives.then (gives_icmp hrs hrt (by rfl)) fun c s₁ _ hc => ?_
  refine (gives_cast hc (by rfl)).imp fun V m y hy h => ?_
  rw [hy, h, eval_zext_bool]

/-- The code of a conditional move chooses between the new value and the old one. -/
theorem gives_moveIf {cond : IntCC} (hrs : s.Has rs .i32) (hrt : s.Has rt .i32)
    (hrd : s.Has rd .i32) :
    Gives s (liftM (moveIf cond rs rt rd)) .i32 fun V _ y =>
      y = if cond.eval .i32 (V rt) (0 : UInt32).toUInt64 then V rs else V rd := by
  simp only [moveIf, liftM_bind]
  refine Gives.then (gives_word 0) fun z s₁ h₁ hz => ?_
  refine Gives.then (gives_icmp (hrt.mono h₁) hz (by rfl)) fun c s₂ h₂ hc => ?_
  refine (gives_select hc (hrs.mono (h₁.trans h₂)) (hrd.mono (h₁.trans h₂))).imp
    fun V m y hy hcond hzero => ?_
  rw [hy, hcond, isTrue_toUInt64, hzero]

/-- The code for an operation on two registers computes its result. -/
theorem gives_lowerAlu {op : AluOp} {code : Attempt Value} (hrs : s.Has rs .i32) (hrt : s.Has rt .i32)
    (hrd : s.Has rd .i32) (hcode : lowerAlu op rs rt rd = some code) :
    Gives s (liftM code) .i32 fun V _ y => ∀ a b c : UInt32, V rs = a.toUInt64 →
      V rt = b.toUInt64 → V rd = c.toUInt64 → y = (op.eval a b c).toUInt64 := by
  -- One case for each operation; those that trap on overflow have no code.
  cases op with
  | addS | subS => cases hcode
  | addU =>
    cases hcode
    exact (gives_binaryWord hrs hrt rfl eval_add).imp fun V m y hy a b c ha hb _ => hy a b ha hb
  | subU =>
    cases hcode
    exact (gives_binaryWord hrs hrt rfl eval_sub).imp fun V m y hy a b c ha hb _ => hy a b ha hb
  | and =>
    cases hcode
    exact (gives_binaryWord hrs hrt rfl eval_and).imp fun V m y hy a b c ha hb _ => hy a b ha hb
  | or =>
    cases hcode
    exact (gives_binaryWord hrs hrt rfl eval_or).imp fun V m y hy a b c ha hb _ => hy a b ha hb
  | xor =>
    cases hcode
    exact (gives_binaryWord hrs hrt rfl eval_xor).imp fun V m y hy a b c ha hb _ => hy a b ha hb
  | mul =>
    cases hcode
    exact (gives_binaryWord hrs hrt rfl eval_mul).imp fun V m y hy a b c ha hb _ => hy a b ha hb
  | nor =>
    cases hcode
    simp only [liftM_bind]
    refine Gives.then (gives_binary hrs hrt (by rfl)) fun w s₁ _ hw => ?_
    refine (gives_unary hw (by rfl)).imp fun V m y hy h a b c ha hb _ => ?_
    rw [hy, h, ha, hb, eval_or]
    exact eval_not _
  | shift op =>
    cases hcode
    exact (gives_shift hrs hrt).imp fun V m y hy a b c ha hb _ => hy b a hb ha
  | setLtS =>
    cases hcode
    refine (gives_compareWord hrs hrt).imp fun V m y hy a b c ha hb _ => ?_
    rw [hy, ha, hb, eval_slt]
    rfl
  | setLtU =>
    cases hcode
    refine (gives_compareWord hrs hrt).imp fun V m y hy a b c ha hb _ => ?_
    rw [hy, ha, hb, eval_ult]
    rfl
  | moveIfZero =>
    cases hcode
    refine (gives_moveIf hrs hrt hrd).imp fun V m y hy a b c ha hb hc => ?_
    rw [hy, ha, hb, hc, eval_eq]
    simp only [AluOp.eval, beq_iff_eq]
    split <;> rfl
  | moveIfNotZero =>
    cases hcode
    refine (gives_moveIf hrs hrt hrd).imp fun V m y hy a b c ha hb hc => ?_
    rw [hy, ha, hb, hc, eval_ne]
    simp only [AluOp.eval, bne_iff_ne]
    by_cases h0 : b = 0 <;> simp [h0]

/-- The code for a multiplication leaves the two words of the product. -/
theorem yields_lowerMult {ext : CastOp} {wide : UInt32 → UInt64} (hrs : s.Has rs .i32)
    (hrt : s.Has rt .i32) (hallowed : Function.castAllowed ext .i32 .i64 = true)
    (heval : ∀ a : UInt32, ext.eval .i32 .i64 a.toUInt64 = wide a) :
    Yields s (liftM (lowerMult ext rs rt)) (fun p s' => s'.Has p.1 .i32 ∧ s'.Has p.2 .i32)
      fun p V m m' => m' = m ∧ ∀ a b : UInt32, V rs = a.toUInt64 → V rt = b.toUInt64 →
        V p.1 = (splitDouble (wide a * wide b)).1.toUInt64 ∧
          V p.2 = (splitDouble (wide a * wide b)).2.toUInt64 := by
  simp only [lowerMult, liftM_bind, liftM_pure]
  refine Gives.bind (gives_cast hrs hallowed) fun a s₁ h₁ ha => ?_
  refine Gives.bind (gives_cast (hrt.mono h₁) hallowed) fun b s₂ h₂ hb => ?_
  refine Gives.bind (gives_binary (ha.mono h₂) hb (by rfl)) fun product s₃ h₃ hproduct => ?_
  refine Gives.bind (gives_const .i64 32) fun amount s₄ h₄ hamount => ?_
  refine Gives.bind (gives_binary (hproduct.mono h₄) hamount (by rfl)) fun high s₅ h₅ hhigh => ?_
  refine Gives.bind (gives_cast hhigh (by rfl)) fun hi s₆ h₆ hhi => ?_
  refine Gives.bind (gives_cast (hproduct.mono (h₄.trans (h₅.trans h₆))) (by rfl))
    fun lo s₇ h₇ hlo => ?_
  refine Yields.pure ⟨hhi.mono h₇, hlo⟩ fun V m e₇ e₆ e₅ e₄ e₃ e₂ e₁ => ⟨rfl, fun x y hx hy => ?_⟩
  have hprod : V product = wide x * wide y := by
    rw [e₃, e₁, e₂, hx, hy, heval, heval, eval_mul64]
  rw [e₇, e₆, e₅, e₄, hprod, and_mask64 _ rfl, eval_lshr64, eval_trunc, eval_trunc]
  exact ⟨rfl, rfl⟩

/-- The code for a division leaves quotient and remainder. -/
theorem yields_lowerDiv {quotient remainder : BinOp} {div : UInt32 → UInt32 → UInt32 × UInt32}
    (hrs : s.Has rs .i32) (hrt : s.Has rt .i32) (hq : quotient.isFloat = false)
    (hr : remainder.isFloat = false)
    (hquotient : ∀ a b : UInt32,
      quotient.eval .i32 a.toUInt64 b.toUInt64 = (div a b).1.toUInt64)
    (hremainder : ∀ a b : UInt32,
      remainder.eval .i32 a.toUInt64 b.toUInt64 = (div a b).2.toUInt64) :
    Yields s (liftM (lowerDiv quotient remainder rs rt))
      (fun p s' => s'.Has p.1 .i32 ∧ s'.Has p.2 .i32)
      fun p V m m' => m' = m ∧ ∀ a b : UInt32, V rs = a.toUInt64 → V rt = b.toUInt64 →
        V p.1 = (div a b).swap.1.toUInt64 ∧ V p.2 = (div a b).swap.2.toUInt64 := by
  simp only [lowerDiv, liftM_bind, liftM_pure]
  refine Gives.bind (gives_binaryWord hrs hrt hq hquotient) fun lo s₁ h₁ hlo => ?_
  refine Gives.bind (gives_binaryWord (hrs.mono h₁) (hrt.mono h₁) hr hremainder)
    fun hi s₂ h₂ hhi => ?_
  exact Yields.pure ⟨hhi, hlo.mono h₂⟩ fun V m e₂ e₁ =>
    ⟨rfl, fun a b ha hb => ⟨e₂ a b ha hb, e₁ a b ha hb⟩⟩

/-- The code of a multiplication or division gives both results. -/
theorem yields_lowerMulDiv {op : MulDivOp} (hrs : s.Has rs .i32) (hrt : s.Has rt .i32) :
    Yields s (liftM (lowerMulDiv op rs rt)) (fun p s' => s'.Has p.1 .i32 ∧ s'.Has p.2 .i32)
      fun p V m m' => m' = m ∧ ∀ a b : UInt32, V rs = a.toUInt64 → V rt = b.toUInt64 →
        V p.1 = (op.eval a b).1.toUInt64 ∧ V p.2 = (op.eval a b).2.toUInt64 := by
  cases op with
  | multS => exact yields_lowerMult hrs hrt rfl eval_sext
  | multU => exact yields_lowerMult hrs hrt rfl eval_zext
  | divS => exact yields_lowerDiv hrs hrt rfl rfl eval_sdiv eval_srem
  | divU => exact yields_lowerDiv hrs hrt rfl rfl eval_udiv eval_urem

/-- Extending a sign by two shifts, the way the code does it. -/
theorem gives_extendSign {drop : UInt32} (hrs : s.Has rs .i32) :
    Gives s (liftM (extendSign drop rs)) .i32 fun V _ y => ∀ a : UInt32, V rs = a.toUInt64 →
      y = (ShiftOp.rightArithmetic.eval (ShiftOp.leftLogical.eval a drop) drop).toUInt64 := by
  simp only [extendSign, liftM_bind]
  refine Gives.then (gives_word drop) fun amount s₁ h₁ hamount => ?_
  refine Gives.then (gives_binaryWord (hrs.mono h₁) hamount rfl eval_shl)
    fun shifted s₂ h₂ hshifted => ?_
  exact (gives_binaryWord hshifted (hamount.mono h₂) rfl eval_ashr).imp
    fun V m y hy e₂ e₁ a ha => hy _ _ (e₂ a drop ha e₁) e₁

/-- The code of an operation on one register computes what the guest's does. -/
theorem gives_lowerUnary {op : UnaryOp} (hrs : s.Has rs .i32) :
    Gives s (liftM (lowerUnary op rs)) .i32 fun V _ y => ∀ a : UInt32, V rs = a.toUInt64 →
      y = (op.eval a).toUInt64 := by
  cases op with
  | countLeadingZeros =>
    refine (gives_unary hrs (by rfl)).imp fun V m y hy a ha => ?_
    rw [hy, ha, eval_clz]
  | signExtendByte =>
    refine (gives_extendSign hrs).imp fun V m y hy a ha => ?_
    rw [hy a ha, eval_extendByte]
  | signExtendHalf =>
    refine (gives_extendSign hrs).imp fun V m y hy a ha => ?_
    rw [hy a ha, eval_extendHalf]

/-- The code for an operation on a register and an immediate computes its result. -/
theorem gives_lowerImm {op : ImmOp} {value : UInt16} {code : Attempt Value} (hrs : s.Has rs .i32)
    (hcode : lowerImm op rs value = some code) :
    Gives s (liftM code) .i32 fun V _ y => ∀ a : UInt32, V rs = a.toUInt64 →
      y = (op.eval a value).toUInt64 := by
  -- The logical operations make the sign-extended immediate too, though only the other one is used.
  have hlogic : ∀ {op : BinOp} {f : UInt32 → UInt32 → UInt32}, op.isFloat = false →
      (∀ a b : UInt32, op.eval .i32 a.toUInt64 b.toUInt64 = (f a b).toUInt64) →
      Gives s (liftM (do
        let _ ← word (signExtend16 value)
        Build.binary op rs (← word value.toUInt32) : Attempt Value)) .i32 fun V _ y =>
          ∀ a : UInt32, V rs = a.toUInt64 → y = (f a value.toUInt32).toUInt64 := by
    intro op f hint heval
    simp only [liftM_bind]
    refine Gives.then (gives_word _) fun _ s₁ h₁ _ => ?_
    refine Gives.then (gives_word _) fun b s₂ h₂ hb => ?_
    exact (gives_binaryWord (hrs.mono (h₁.trans h₂)) hb hint heval).imp
      fun V m y hy e₂ _ a ha => hy a _ ha e₂
  cases op with
  | addS => cases hcode
  | addU =>
    cases hcode
    simp only [liftM_bind]
    refine Gives.then (gives_word _) fun b s₁ h₁ hb => ?_
    exact (gives_binaryWord (hrs.mono h₁) hb rfl eval_add).imp fun V m y hy e₁ a ha => hy a _ ha e₁
  | and =>
    cases hcode
    exact hlogic rfl eval_and
  | or =>
    cases hcode
    exact hlogic rfl eval_or
  | xor =>
    cases hcode
    exact hlogic rfl eval_xor
  | setLtS =>
    cases hcode
    simp only [liftM_bind]
    refine Gives.then (gives_word _) fun b s₁ h₁ hb => ?_
    refine (gives_compareWord (hrs.mono h₁) hb).imp fun V m y hy e₁ a ha => ?_
    rw [hy, ha, e₁, eval_slt]
    rfl
  | setLtU =>
    cases hcode
    simp only [liftM_bind]
    refine Gives.then (gives_word _) fun b s₁ h₁ hb => ?_
    refine (gives_compareWord (hrs.mono h₁) hb).imp fun V m y hy e₁ a ha => ?_
    rw [hy, ha, e₁, eval_ult]
    rfl

/-- The code of an address adds the extended offset, modulo `2 ^ 32`. -/
theorem gives_lowerAddr {offset : UInt16} (hrs : s.Has rs .i32) :
    Gives s (liftM (lowerAddr rs offset)) .i32 fun V _ y => ∀ a : UInt32, V rs = a.toUInt64 →
      y = (a + signExtend16 offset).toUInt64 := by
  simp only [lowerAddr, liftM_bind]
  refine Gives.then (gives_word _) fun b s₁ h₁ hb => ?_
  exact (gives_binaryWord (hrs.mono h₁) hb rfl eval_add).imp fun V m y hy e₁ a ha => hy a _ ha e₁

end

/-! ## Floating-point operations -/

/-- The number in a register is that of its bits in the format. -/
theorem value_fpBits (g : State) (fmt : FpFormat) (f : Fpr) :
    (fpTy fmt).value (g.fpBits fmt f) = g.fpValue fmt f := by
  cases fmt with
  | single => simp [fpTy, Ty.value, State.fpBits, State.fpValue]
  | double => rfl

/-- Both formats have types of floating-point numbers. -/
theorem isFloat_fpTy (fmt : FpFormat) : (fpTy fmt).isFloat = true := by
  cases fmt <;> rfl

/-- The code for a comparison replaces one condition code. -/
theorem gives_lowerCompare {cond : FpCond} {cc : Fin 8} {fmt : FpFormat} {a b fccr : Value}
    (ha : s.Has a (fpTy fmt)) (hb : s.Has b (fpTy fmt)) (hfccr : s.Has fccr .i32) :
    Gives s (liftM (lowerCompare cond cc a b fccr)) .i32 fun V _ y => ∀ w : UInt32,
      V fccr = w.toUInt64 → y = (if cond.eval ((fpTy fmt).value (V a)) ((fpTy fmt).value (V b))
        then w ||| State.ccBit cc else w &&& ~~~(State.ccBit cc)).toUInt64 := by
  simp only [lowerCompare, liftM_bind]
  refine Gives.then (gives_fcmp ha hb (isFloat_fpTy fmt)) fun o s₁ h₁ ho => ?_
  refine Gives.then (gives_cast ho (by rfl)) fun o' s₂ h₂ ho' => ?_
  refine Gives.then (gives_word _) fun amount s₃ h₃ hamount => ?_
  refine Gives.then (gives_binaryWord (ho'.mono h₃) hamount rfl eval_shl) fun bit s₄ h₄ hbit => ?_
  refine Gives.then (gives_word _) fun mask s₅ h₅ hmask => ?_
  have hle := h₁.trans (h₂.trans (h₃.trans (h₄.trans h₅)))
  refine Gives.then (gives_binaryWord (hfccr.mono hle) hmask rfl eval_and) fun kept s₆ h₆ hkept => ?_
  refine (gives_binaryWord hkept (hbit.mono (h₅.trans h₆)) rfl eval_or).imp
    fun V m y hy e₆ e₅ e₄ e₃ e₂ e₁ w hw => ?_
  rw [e₁, eval_zext_bool] at e₂
  rw [hy _ _ (e₆ w _ hw e₅) (e₄ _ _ e₂ e₃), fccr_or]
  rfl

/-- What the code from `t` to `t'` does to the values of the table and to memory is what the
instruction does to the guest state. -/
def Runs (t : RegTable) (addr : UInt32) (insn : Instr) (t' : RegTable) (V : Value → UInt64)
    (m m' : Watched) : Prop :=
  ∀ g : State, t.Agrees V g → g.mem = m.state.mem →
    ∃ g', execute g addr insn = .ok g' ∧ t'.Agrees V g' ∧
      m'.state = { m.state with mem := g'.mem }

/-- Code that leaves the machine alone, for an instruction that leaves memory alone. -/
theorem Runs.of_quiet (hm : m' = m) (h : ∀ g : State, t.Agrees V g →
    ∃ g', execute g addr insn = .ok g' ∧ t'.Agrees V g' ∧ g'.mem = g.mem) :
    Runs t addr insn t' V m m' := by
  intro g hg hmem
  obtain ⟨g', hok, hg', hmem'⟩ := h g hg
  refine ⟨g', hok, hg', ?_⟩
  rw [hm, hmem', hmem]

/-- Writing a floating-point register leaves memory alone. -/
theorem mem_setFpBits (g : State) (fmt : FpFormat) (f : Fpr) (y : UInt64) :
    (g.setFpBits fmt f y).mem = g.mem := by
  cases fmt <;> rfl

/-- The results of operations on singles are words. -/
theorem unary_f32 (op : UnOp) (y : UInt64) : ∃ x : UInt32, op.eval .f32 y = x.toUInt64 :=
  ⟨_, and_mask32 _ rfl⟩

/-- A conversion to a single has no bits above the word. -/
theorem cast_f32 (op : CastOp) (source : Ty) (y : UInt64) :
    ∃ x : UInt32, op.eval source .f32 y = x.toUInt64 := ⟨_, and_mask32 _ rfl⟩

/-- An operation on singles has no bits above the word. -/
theorem binary_f32 (op : BinOp) (y z : UInt64) : ∃ x : UInt32, op.eval .f32 y z = x.toUInt64 :=
  ⟨_, and_mask32 _ rfl⟩

/-- Writing a computed datum to a register. -/
theorem yields_writeResult (fmt : FpFormat) {fd : Fpr} {R : State → UInt64} (ht : t.Typed s)
    (hv : s.Has v (fpTy fmt))
    (hrun : ∀ g : State, execute g addr insn = .ok (g.setFpBits fmt fd (R g))) :
    Yields s (t.writeFp fmt fd v) (fun t' s' => t.Keeps t' s') fun t' V m m' =>
      (∀ g : State, t.Agrees V g → V v = R g) → (fmt = .single → ∃ x : UInt32, V v = x.toUInt64) →
        Runs t addr insn t' V m m' := by
  refine (RegTable.yields_writeFp ht hv).imp (fun _ _ _ h => h) fun t' V m m' h hR hword => ?_
  refine Runs.of_quiet h.1 fun g hg => ⟨_, hrun g, ?_, mem_setFpBits ..⟩
  rw [← hR g hg]
  exact h.2 g hg hword

/-- The code for an operation that maps one datum to another. -/
theorem yields_fpUnary {fmt : FpFormat} (op : UnOp) {fd fs : Fpr} (ht : t.Typed s)
    (hfs : ∀ u ∈ Tracked.units (.fpr fs fmt), t.Loaded u) (hop : op.isFloat = true)
    (hrun : ∀ g : State, execute g addr insn =
      .ok (g.setFpBits fmt fd (op.eval (fpTy fmt) (g.fpBits fmt fs)))) :
    Yields s (do t.writeFp fmt fd (← liftM (Build.unary op (← t.readFp fmt fs))))
      (fun t' s' => t.Keeps t' s') (Runs t addr insn) := by
  refine Gives.bind (RegTable.gives_readFp ht hfs) fun a s₁ h₁ ha => ?_
  refine Gives.bind (gives_unary ha (by rw [isFloat_fpTy, hop])) fun b s₂ h₂ hb => ?_
  refine (yields_writeResult _ (ht.mono (h₁.trans h₂)) hb hrun).imp (fun _ _ _ h => h)
    fun t' V m m' h e₂ e₁ => h (fun g hg => ?_) ?_
  · rw [e₂, e₁ g hg]
  · rintro rfl
    rw [e₂]
    exact unary_f32 op _

/-- Floating-point arithmetic of the guest is that of the evaluator, bit for bit. -/
theorem execute_fpAlu (op : FpAluOp) {fmt : FpFormat} {fd fs ft : Fpr} (g : State) :
    execute g addr (.fpAlu op fmt fd fs ft) = .ok (g.setFpBits fmt fd
      ((fpAluOp op).eval (fpTy fmt) (g.fpBits fmt fs) (g.fpBits fmt ft))) := by
  cases fmt with
  | single =>
    cases op <;> simp only [State.setFpBits, State.fpBits, fpTy, fpAluOp, BinOp.eval, floatBinary32,
      UInt32.toUInt32_toUInt64] <;> rfl
  | double =>
    cases op <;> simp only [State.setFpBits, State.fpBits, fpTy, fpAluOp, BinOp.eval,
      floatBinary64] <;> rfl

/-- Writing a computed word to a floating-point register. -/
theorem yields_writeWord {fd : Fpr} {R : State → UInt32} (ht : t.Typed s) (hv : s.Has v .i32)
    (hrun : ∀ g : State, execute g addr insn = .ok (g.setFprBits fd (R g))) :
    Yields s (t.writeBits fd v) (fun t' s' => t.Keeps t' s') fun t' V m m' =>
      (∀ g : State, t.Agrees V g → V v = (R g).toUInt64) → Runs t addr insn t' V m m' := by
  refine (RegTable.yields_writeBits ht hv).imp (fun _ _ _ h => h) fun t' V m m' h hR => ?_
  exact Runs.of_quiet h.1 fun g hg => ⟨_, hrun g, h.2 g _ hg (hR g hg), rfl⟩

section

variable {fmt : FpFormat} {fd fs : Fpr} (g : State)

/-- An absolute value of the guest is that of the evaluator, bit for bit. -/
theorem execute_fpAbs : execute g addr (.fpUnary (.abs fmt) fd fs) =
    .ok (g.setFpBits fmt fd (UnOp.fabs.eval (fpTy fmt) (g.fpBits fmt fs))) := by
  cases fmt with
  | single =>
    simp only [State.setFpBits, State.fpBits, fpTy, eval_fabs32, UInt32.toUInt32_toUInt64]
    rfl
  | double =>
    simp only [State.setFpBits, State.fpBits, fpTy, eval_fabs64]
    rfl

/-- A negation of the guest is that of the evaluator, bit for bit. -/
theorem execute_fpNeg : execute g addr (.fpUnary (.neg fmt) fd fs) =
    .ok (g.setFpBits fmt fd (UnOp.fneg.eval (fpTy fmt) (g.fpBits fmt fs))) := by
  cases fmt with
  | single =>
    simp only [State.setFpBits, State.fpBits, fpTy, eval_fneg32, UInt32.toUInt32_toUInt64]
    rfl
  | double =>
    simp only [State.setFpBits, State.fpBits, fpTy, eval_fneg64]
    rfl

/-- A square root of the guest is that of the evaluator, bit for bit. -/
theorem execute_fpSqrt : execute g addr (.fpUnary (.sqrt fmt) fd fs) =
    .ok (g.setFpBits fmt fd (UnOp.fsqrt.eval (fpTy fmt) (g.fpBits fmt fs))) := by
  cases fmt with
  | single =>
    simp only [State.setFpBits, State.fpBits, fpTy, UnOp.eval, floatUnary32, UInt32.toUInt32_toUInt64]
    rfl
  | double =>
    simp only [State.setFpBits, State.fpBits, fpTy, UnOp.eval, floatUnary64]
    rfl

/-- A move of the guest copies the bits, whatever number they are. -/
theorem execute_fpMove : execute g addr (.fpUnary (.move fmt) fd fs) =
    .ok (g.setFpBits fmt fd (g.fpBits fmt fs)) := by
  cases fmt with
  | single =>
    simp only [State.setFpBits, State.fpBits, UInt32.toUInt32_toUInt64]
    rfl
  | double => rfl

/-- A conversion of a word to a number is that of the evaluator. -/
theorem execute_fpFromWord : execute g addr (.fpUnary (.fromWord fmt) fd fs) =
    .ok (g.setFpBits fmt fd
      (CastOp.sitofp.eval .i32 (fpTy fmt) (g.fprBits fs).toUInt64)) := by
  cases fmt with
  | single =>
    simp only [State.setFpBits, fpTy, eval_sitofp32, UInt32.toUInt32_toUInt64]
    rfl
  | double =>
    simp only [State.setFpBits, fpTy, eval_sitofp64]
    rfl

end

section

variable {fmt : FpFormat} {fd fs : Fpr}

/-- Moving a register copies its value in the format of the move. -/
theorem yields_fpMove (ht : t.Typed s) (hfs : ∀ u ∈ Tracked.units (.fpr fs fmt), t.Loaded u) :
    Yields s (lowerFpUnary t (.move fmt) fd fs) (fun t' s' => t.Keeps t' s')
      (Runs t addr (.fpUnary (.move fmt) fd fs)) := by
  refine Gives.bind (RegTable.gives_readFp ht hfs) fun a s₁ h₁ ha => ?_
  refine (yields_writeResult _ (ht.mono h₁) ha fun g => execute_fpMove g).imp (fun _ _ _ h => h)
    fun t' V m m' h e₁ g hg => h e₁ ?_ g hg
  rintro rfl
  exact ⟨_, e₁ g hg⟩

/-- Converting a double to a single. -/
theorem yields_fpNarrow (ht : t.Typed s) (hfs : ∀ u ∈ Tracked.units (.fpr fs .double), t.Loaded u) :
    Yields s (lowerFpUnary t (.convert .single .double) fd fs) (fun t' s' => t.Keeps t' s')
      (Runs t addr (.fpUnary (.convert .single .double) fd fs)) := by
  refine Gives.bind (RegTable.gives_readFp ht hfs) fun a s₁ h₁ ha => ?_
  refine Gives.bind (gives_cast ha (by rfl)) fun b s₂ h₂ hb => ?_
  have hrun : ∀ g : State, execute g addr (.fpUnary (.convert .single .double) fd fs) =
      .ok (g.setFpBits .single fd (Ieee.narrow (g.pairBits fs)).toUInt64) := fun g => by
    simp only [State.setFpBits, UInt32.toUInt32_toUInt64]
    rfl
  refine (yields_writeResult .single (ht.mono (h₁.trans h₂)) hb hrun).imp (fun _ _ _ h => h)
    fun t' V m m' h e₂ e₁ => h (fun g hg => ?_) fun _ => ?_
  · rw [e₂, e₁ g hg]
    exact eval_fptrunc _
  · rw [e₂]
    exact cast_f32 _ _ _

/-- Converting a single to a double. -/
theorem yields_fpWiden (ht : t.Typed s) (hfs : ∀ u ∈ Tracked.units (.fpr fs .single), t.Loaded u) :
    Yields s (lowerFpUnary t (.convert .double .single) fd fs) (fun t' s' => t.Keeps t' s')
      (Runs t addr (.fpUnary (.convert .double .single) fd fs)) := by
  refine Gives.bind (RegTable.gives_readFp ht hfs) fun a s₁ h₁ ha => ?_
  refine Gives.bind (gives_cast ha (by rfl)) fun b s₂ h₂ hb => ?_
  have hrun : ∀ g : State, execute g addr (.fpUnary (.convert .double .single) fd fs) =
      .ok (g.setFpBits .double fd (Ieee.widen (g.fprBits fs))) := fun g => rfl
  refine (yields_writeResult .double (ht.mono (h₁.trans h₂)) hb hrun).imp (fun _ _ _ h => h)
    fun t' V m m' h e₂ e₁ => h (fun g hg => ?_) (by simp)
  rw [e₂, e₁ g hg]
  exact eval_fpext _

/-- Converting a word, which is in the bits of a single, to a number. -/
theorem yields_fpFromWord (ht : t.Typed s)
    (hfs : ∀ u ∈ Tracked.units (.fpr fs .single), t.Loaded u) :
    Yields s (lowerFpUnary t (.fromWord fmt) fd fs) (fun t' s' => t.Keeps t' s')
      (Runs t addr (.fpUnary (.fromWord fmt) fd fs)) := by
  refine Gives.bind (RegTable.gives_readBits ht (hfs _ (by simp [Tracked.units])))
    fun a s₁ h₁ ha => ?_
  have hallowed : Function.castAllowed .sitofp .i32 (fpTy fmt) = true := by cases fmt <;> rfl
  refine Gives.bind (gives_cast ha hallowed) fun b s₂ h₂ hb => ?_
  refine (yields_writeResult _ (ht.mono (h₁.trans h₂)) hb fun g => execute_fpFromWord g).imp
    (fun _ _ _ h => h) fun t' V m m' h e₂ e₁ => h (fun g hg => ?_) ?_
  · rw [e₂, e₁ g hg]
  · rintro rfl
    rw [e₂]
    exact cast_f32 _ _ _

/-- Rounding to a word is rounding to an integral datum first. -/
theorem yields_fpToWord (ht : t.Typed s) (hfs : ∀ u ∈ Tracked.units (.fpr fs fmt), t.Loaded u) :
    Yields s (lowerFpUnary t (.toWord fmt) fd fs) (fun t' s' => t.Keeps t' s')
      (Runs t addr (.fpUnary (.toWord fmt) fd fs)) := by
  refine Gives.bind (RegTable.gives_readFp ht hfs) fun a s₁ h₁ ha => ?_
  refine Gives.bind (gives_unary ha (by rw [isFloat_fpTy]; rfl)) fun b s₂ h₂ hb => ?_
  have hallowed : Function.castAllowed .fptosi (fpTy fmt) .i32 = true := by cases fmt <;> rfl
  refine Gives.bind (gives_cast hb hallowed) fun c s₃ h₃ hc => ?_
  refine (yields_writeWord (R := fun g => Ieee.toWord .nearestEven (g.fpValue fmt fs))
    (ht.mono (h₁.trans (h₂.trans h₃))) hc fun g => rfl).imp (fun _ _ _ h => h)
    fun t' V m m' h e₃ e₂ e₁ => h fun g hg => ?_
  rw [e₃, e₂, e₁ g hg, eval_fptosi, toWord_froundEven _ (isFloat_fpTy fmt), value_fpBits]
  intro hty
  cases fmt with
  | single => exact ⟨_, rfl⟩
  | double => cases hty

/-- Converting a number to a word, which goes into the bits of a single. -/
theorem yields_fpTruncToWord (ht : t.Typed s)
    (hfs : ∀ u ∈ Tracked.units (.fpr fs fmt), t.Loaded u) :
    Yields s (lowerFpUnary t (.truncToWord fmt) fd fs) (fun t' s' => t.Keeps t' s')
      (Runs t addr (.fpUnary (.truncToWord fmt) fd fs)) := by
  refine Gives.bind (RegTable.gives_readFp ht hfs) fun a s₁ h₁ ha => ?_
  have hallowed : Function.castAllowed .fptosi (fpTy fmt) .i32 = true := by cases fmt <;> rfl
  refine Gives.bind (gives_cast ha hallowed) fun b s₂ h₂ hb => ?_
  refine (yields_writeWord (R := fun g => Ieee.toWord .towardZero (g.fpValue fmt fs))
    (ht.mono (h₁.trans h₂)) hb fun g => rfl).imp (fun _ _ _ h => h)
    fun t' V m m' h e₂ e₁ => h fun g hg => ?_
  rw [e₂, e₁ g hg, eval_fptosi, value_fpBits]

end

/-- The code for a floating-point operation on one register. -/
theorem yields_lowerFpUnary {op : FpUnaryOp} {fd fs : Fpr} (ht : t.Typed s)
    (hfs : ∀ u ∈ Tracked.units (.fpr fs op.source), t.Loaded u)
    (hconvert : ∀ fmt, op ≠ .convert fmt fmt) :
    Yields s (lowerFpUnary t op fd fs) (fun t' s' => t.Keeps t' s')
      (Runs t addr (.fpUnary op fd fs)) := by
  cases op with
  | abs fmt => exact yields_fpUnary .fabs ht hfs rfl fun g => execute_fpAbs g
  | neg fmt => exact yields_fpUnary .fneg ht hfs rfl fun g => execute_fpNeg g
  | sqrt fmt => exact yields_fpUnary .fsqrt ht hfs rfl fun g => execute_fpSqrt g
  | move fmt => exact yields_fpMove ht hfs
  | convert target source =>
    cases target <;> cases source
    · exact absurd rfl (hconvert .single)
    · exact yields_fpNarrow ht hfs
    · exact yields_fpWiden ht hfs
    · exact absurd rfl (hconvert .double)
  | fromWord fmt => exact yields_fpFromWord ht hfs
  | toWord fmt => exact yields_fpToWord ht hfs
  | truncToWord fmt => exact yields_fpTruncToWord ht hfs

/-! ## Instructions -/

/-- The table has a value for every register that the instruction reads or writes. -/
def RegTable.Covers (t : RegTable) (insn : Instr) : Prop :=
  ∀ ref ∈ insn.uses ++ insn.effectiveDefs, ∀ u ∈ Tracked.units ref, t.Loaded u

/-- `$0` is always loaded. -/
theorem RegTable.Typed.loaded_gpr {r : Gpr} (ht : t.Typed s)
    (h : ∀ u ∈ Tracked.units (.gpr r), t.Loaded u) : t.Loaded (.gpr r) := by
  by_cases hz : r.isZero = true
  · rw [Gpr.isZero_iff.1 hz]
    exact ht.zero
  · exact h _ (by simp [Tracked.units, hz])

namespace RegTable.Covers

variable {r : Gpr}

/-- What an instruction reads is loaded. -/
theorem uses (h : t.Covers insn) (ref : RegRef) (hmem : ref ∈ insn.uses) :
    ∀ u ∈ Tracked.units ref, t.Loaded u := h ref (List.mem_append_left _ hmem)

/-- A general register that is read is loaded. -/
theorem use (h : t.Covers insn) (ht : t.Typed s) (hmem : .gpr r ∈ insn.uses) : t.Loaded (.gpr r) :=
  ht.loaded_gpr (h.uses _ hmem)

/-- A general register that is written is loaded. -/
theorem define (h : t.Covers insn) (ht : t.Typed s) (hmem : .gpr r ∈ insn.defs) :
    t.Loaded (.gpr r) := by
  by_cases hr : r = .zero
  · rw [hr]
    exact ht.zero
  · refine ht.loaded_gpr (h _ (List.mem_append_right _ (List.mem_filter.2 ⟨hmem, ?_⟩)))
    simpa using hr

end RegTable.Covers

/-- Giving a general register the value that was computed for it. -/
theorem yields_setGpr {rd : Gpr} {R : State → UInt32} (ht : t.Typed s) (hv : s.Has v .i32)
    (hrun : ∀ g : State, execute g addr insn = .ok (g.setReg rd (R g))) :
    Yields s (pure (t.setGpr rd v .variant) : Emit RegTable) (fun t' s' => t.Keeps t' s')
      fun t' V m m' => (∀ g : State, t.Agrees V g → V v = (R g).toUInt64) →
        Runs t addr insn t' V m m' := by
  refine Yields.pure (RegTable.keeps_setGpr ht rd .variant hv) fun V m hR => ?_
  exact Runs.of_quiet rfl fun g hg => ⟨_, hrun g, hg.setGpr rd (hR g hg) (by rintro c ⟨⟩),
    State.mem_setReg ..⟩

/-- A load gives the word that the guest gets. -/
theorem loaded_value (g : State) (op : LoadOp) (a : UInt32) :
    (if loadSigned op then
        (signExtend (g.mem.read a.toUInt64.toUInt32 (loadWidth op)) (loadWidth op).bits).toUInt64
      else g.mem.read a.toUInt64.toUInt32 (loadWidth op)) &&& Ty.i32.mask =
      (g.loadValue op a).toUInt64 := by
  rw [UInt32.toUInt32_toUInt64, and_mask32 _ rfl, toUInt64_inj]
  cases op with
  | byteS => exact signExtend_byte _
  | halfS => exact signExtend_half _
  | byteU | halfU | word => rfl

/-- A state with the memory that it has. -/
theorem with_mem (g : State) {mem : Machine.Memory} (h : mem = g.mem) :
    g = { g with mem := mem } := by
  subst h
  rfl

/-- A store writes what the guest writes. -/
theorem Runs.of_store {width : Machine.Width} {addr' value : Value} {a : State → UInt32}
    {x : State → UInt64}
    (hrun : ∀ g : State, execute g addr insn = .ok { g with mem := g.mem.write (a g) width (x g) })
    (hm : m' = GuestMachine.store m (V addr').toUInt32 width (V value &&& widthMask width))
    (ha : ∀ g : State, t.Agrees V g → V addr' = (a g).toUInt64)
    (hx : ∀ g : State, t.Agrees V g → V value = x g) : Runs t addr insn t V m m' := by
  intro g hg hmem
  refine ⟨_, hrun g, hg.of_mem _, ?_⟩
  have hwrite := write_and_widthMask (x g) m.state.mem (a g) width
  rw [hm, ha g hg, hx g hg, UInt32.toUInt32_toUInt64, hmem, ← hwrite]
  rfl

/-- The code for the instruction leaves a table to go on with, and does to the values of the table
and to memory what the instruction does to the guest. -/
def Lowers (s : Site) (t : RegTable) (addr : UInt32) (insn : Instr) : Prop :=
  Yields s (lowerPlain t insn) (fun t' s' => t.Keeps t' s') (Runs t addr insn)

/-- Code that goes on from the address of an access. -/
theorem yields_atAddr {β : Type} {base : Gpr} {offset : UInt16} {k : Value → Emit β}
    {U : β → Site → Prop} {Q : β → (Value → UInt64) → Watched → Watched → Prop} (ht : t.Typed s)
    (hbase : t.Loaded (.gpr base))
    (hk : ∀ a s₁, s.Le s₁ → s₁.Has a .i32 → Yields s₁ (k a) U fun b V m m' =>
      (∀ g : State, t.Agrees V g → V a = (g.effectiveAddr base offset).toUInt64) → Q b V m m') :
    Yields s (do k (← liftM (lowerAddr (← liftM (t.getGpr base)) offset))) U Q := by
  refine Gives.bind (RegTable.gives_getGpr ht hbase) fun a s₁ h₁ ha => ?_
  refine Gives.bind (gives_lowerAddr ha) fun b s₂ h₂ hb => ?_
  exact (hk b s₂ (h₁.trans h₂) hb).imp (fun _ _ _ h => h) fun _ V m m' h e₂ e₁ =>
    h fun g hg => e₂ _ (e₁ g hg)

namespace Lowers

variable {r rd rs rt base : Gpr} {fd fs ft : Fpr} {fmt : FpFormat} {offset : UInt16}

/-! ### Integer instructions -/

/-- Doing nothing needs no code. -/
theorem nop (ht : t.Typed s) : Lowers s t addr .nop :=
  Yields.pure (.refl ht) fun _ _ => Runs.of_quiet rfl fun g hg => ⟨g, rfl, hg, rfl⟩

/-- A barrier needs no code, since accesses happen in order anyway. -/
theorem sync (ht : t.Typed s) : Lowers s t addr .sync :=
  Yields.pure (.refl ht) fun _ _ => Runs.of_quiet rfl fun g hg => ⟨g, rfl, hg, rfl⟩

/-- Shifts by a constant. -/
theorem shift {op : ShiftOp} {amount : Fin 32} (ht : t.Typed s)
    (hcovers : t.Covers (.shift op rd rt amount)) : Lowers s t addr (.shift op rd rt amount) := by
  have hrt := hcovers.use ht (r := rt) (by simp [Instr.uses])
  refine Gives.bind (gives_word _) fun a s₁ h₁ ha => ?_
  refine Gives.bind (RegTable.gives_getGpr (ht.mono h₁) hrt) fun b s₂ h₂ hb => ?_
  refine Gives.bind (gives_shift (ha.mono h₂) hb) fun c s₃ h₃ hc => ?_
  refine (yields_setGpr (ht.mono (h₁.trans (h₂.trans h₃))) hc fun g => rfl).imp
    (fun _ _ _ h => h) fun t' V m m' h e₃ e₂ e₁ => h fun g hg => e₃ _ _ (e₂ g hg) e₁

/-- The operations that trap on overflow have no code. -/
theorem alu {op : AluOp} (ht : t.Typed s) (hcovers : t.Covers (.alu op rd rs rt))
    (hcan : (Instr.alu op rd rs rt).canCompile = true) : Lowers s t addr (.alu op rd rs rt) := by
  have hrun : ∀ g : State, execute g addr (.alu op rd rs rt) =
      .ok (g.setReg rd (op.eval (g.reg rs) (g.reg rt) (g.reg rd))) := fun g => by
    cases op <;> first | rfl | cases hcan
  have hrs := hcovers.use ht (r := rs) (by simp [Instr.uses])
  have hrt := hcovers.use ht (r := rt) (by simp [Instr.uses])
  have hrd := hcovers.define ht (r := rd) (by simp [Instr.defs])
  unfold Lowers lowerPlain
  refine Gives.bind (RegTable.gives_getGpr ht hrs) fun a s₁ h₁ ha => ?_
  refine Gives.bind (RegTable.gives_getGpr (ht.mono h₁) hrt) fun b s₂ h₂ hb => ?_
  refine Gives.bind (RegTable.gives_getGpr (ht.mono (h₁.trans h₂)) hrd) fun c s₃ h₃ hc => ?_
  have hsome : ∃ code, lowerAlu op a b c = some code := by
    cases op <;> first | exact ⟨_, rfl⟩ | cases hcan
  obtain ⟨code, hcode⟩ := hsome
  rw [hcode]
  refine Gives.bind (gives_lowerAlu (ha.mono (h₂.trans h₃)) (hb.mono h₃) hc hcode)
    fun d s₄ h₄ hd => ?_
  exact (yields_setGpr (ht.mono (h₁.trans (h₂.trans (h₃.trans h₄)))) hd hrun).imp
    (fun _ _ _ h => h) fun t' V m m' h e₄ e₃ e₂ e₁ =>
      h fun g hg => e₄ _ _ _ (e₁ g hg) (e₂ g hg) (e₃ g hg)

/-- Multiplications and divisions, which write `hi` and `lo`. -/
theorem mulDiv {op : MulDivOp} (ht : t.Typed s) (hcovers : t.Covers (.mulDiv op rs rt)) :
    Lowers s t addr (.mulDiv op rs rt) := by
  have hrs := hcovers.use ht (r := rs) (by simp [Instr.uses])
  have hrt := hcovers.use ht (r := rt) (by simp [Instr.uses])
  refine Gives.bind (RegTable.gives_getGpr ht hrs) fun a s₁ h₁ ha => ?_
  refine Gives.bind (RegTable.gives_getGpr (ht.mono h₁) hrt) fun b s₂ h₂ hb => ?_
  refine Yields.bind (yields_lowerMulDiv (ha.mono h₂) hb) fun p s₃ h₃ hp => ?_
  have hkeeps := RegTable.keeps_setHiLo (ht.mono (h₁.trans (h₂.trans h₃))) .hi hp.1
  refine Yields.pure (hkeeps.trans (RegTable.keeps_setHiLo hkeeps.typed .lo hp.2)) ?_
  rintro V m m₁ ⟨rfl, e₃⟩ e₂ e₁
  refine Runs.of_quiet rfl fun g hg => ?_
  obtain ⟨hhi, hlo⟩ := e₃ _ _ (e₁ g hg) (e₂ g hg)
  exact ⟨_, rfl, (hg.setHiLo .hi hhi).setHiLo .lo hlo, rfl⟩

/-- Moves from and to `hi` and `lo`. -/
theorem hiLoMove {dir : HiLoMove} (ht : t.Typed s) (hcovers : t.Covers (.hiLoMove dir r)) :
    Lowers s t addr (.hiLoMove dir r) := by
  cases dir with
  | fromHi =>
    refine Gives.bind (RegTable.gives_getHiLo (h := .hi) ht
      (hcovers.uses (.hiLo .hi) (by simp [Instr.uses]) _ (by simp [Tracked.units])))
      fun a s₁ h₁ ha => ?_
    exact (yields_setGpr (ht.mono h₁) ha fun g => rfl).imp (fun _ _ _ h => h)
      fun t' V m m' h e₁ => h e₁
  | fromLo =>
    refine Gives.bind (RegTable.gives_getHiLo (h := .lo) ht
      (hcovers.uses (.hiLo .lo) (by simp [Instr.uses]) _ (by simp [Tracked.units])))
      fun a s₁ h₁ ha => ?_
    exact (yields_setGpr (ht.mono h₁) ha fun g => rfl).imp (fun _ _ _ h => h)
      fun t' V m m' h e₁ => h e₁
  | toHi =>
    have hr := hcovers.use ht (r := r) (by simp [Instr.uses])
    refine Gives.bind (RegTable.gives_getGpr ht hr) fun a s₁ h₁ ha => ?_
    exact Yields.pure (RegTable.keeps_setHiLo (ht.mono h₁) .hi ha) fun V m e₁ =>
      Runs.of_quiet rfl fun g hg => ⟨_, rfl, hg.setHiLo .hi (e₁ g hg), rfl⟩
  | toLo =>
    have hr := hcovers.use ht (r := r) (by simp [Instr.uses])
    refine Gives.bind (RegTable.gives_getGpr ht hr) fun a s₁ h₁ ha => ?_
    exact Yields.pure (RegTable.keeps_setHiLo (ht.mono h₁) .lo ha) fun V m e₁ =>
      Runs.of_quiet rfl fun g hg => ⟨_, rfl, hg.setHiLo .lo (e₁ g hg), rfl⟩

/-- Operations on one general register. -/
theorem unary {op : UnaryOp} (ht : t.Typed s) (hcovers : t.Covers (.unary op rd rs)) :
    Lowers s t addr (.unary op rd rs) := by
  have hrs := hcovers.use ht (r := rs) (by simp [Instr.uses])
  refine Gives.bind (RegTable.gives_getGpr ht hrs) fun a s₁ h₁ ha => ?_
  refine Gives.bind (gives_lowerUnary ha) fun b s₂ h₂ hb => ?_
  exact (yields_setGpr (ht.mono (h₁.trans h₂)) hb fun g => rfl).imp (fun _ _ _ h => h)
    fun t' V m m' h e₂ e₁ => h fun g hg => e₂ _ (e₁ g hg)

/-- The operation that traps on overflow has no code. -/
theorem imm {op : ImmOp} {value : UInt16} (ht : t.Typed s) (hcovers : t.Covers (.imm op rt rs value))
    (hcan : (Instr.imm op rt rs value).canCompile = true) : Lowers s t addr (.imm op rt rs value) := by
  have hrun : ∀ g : State, execute g addr (.imm op rt rs value) =
      .ok (g.setReg rt (op.eval (g.reg rs) value)) := fun g => by
    cases op <;> first | rfl | cases hcan
  have hrs := hcovers.use ht (r := rs) (by simp [Instr.uses])
  unfold Lowers lowerPlain
  refine Gives.bind (RegTable.gives_getGpr ht hrs) fun a s₁ h₁ ha => ?_
  have hsome : ∃ code, lowerImm op a value = some code := by
    cases op <;> first | exact ⟨_, rfl⟩ | cases hcan
  obtain ⟨code, hcode⟩ := hsome
  rw [hcode]
  refine Gives.bind (gives_lowerImm ha hcode) fun b s₂ h₂ hb => ?_
  exact (yields_setGpr (ht.mono (h₁.trans h₂)) hb hrun).imp (fun _ _ _ h => h)
    fun t' V m m' h e₂ e₁ => h fun g hg => e₂ _ (e₁ g hg)

/-- The result is a constant, and the table notes it. -/
theorem loadUpper {value : UInt16} (ht : t.Typed s) : Lowers s t addr (.loadUpper rt value) := by
  refine Gives.bind (gives_word _) fun a s₁ h₁ ha => ?_
  refine Yields.pure (RegTable.keeps_setGpr (ht.mono h₁) rt _ ha) fun V m e₁ => ?_
  refine Runs.of_quiet rfl fun g hg => ⟨_, rfl, hg.setGpr rt e₁ fun c hc => ?_, State.mem_setReg ..⟩
  exact Option.some.inj hc

/-! ### Loads and stores -/

/-- Loads, which read memory and nothing else of the guest. -/
theorem load {op : LoadOp} (ht : t.Typed s) (hcovers : t.Covers (.load op rt base offset)) :
    Lowers s t addr (.load op rt base offset) := by
  have hbase := hcovers.use ht (r := base) (by simp [Instr.uses])
  refine yields_atAddr ht hbase fun a s₁ h₁ ha => ?_
  have hwidth : (loadWidth op).bits ≤ Ty.i32.width := by cases op <;> decide
  refine Gives.bind (gives_load ha (by rfl) hwidth) fun b s₂ h₂ hb => ?_
  have hkeeps := RegTable.keeps_setGpr (ht.mono (h₁.trans h₂)) rt .variant hb
  refine Yields.pure hkeeps fun V m e₂ e₁ g hg hmem => ⟨_, rfl, ?_, ?_⟩
  · refine hg.setGpr rt ?_ (by rintro c ⟨⟩)
    rw [e₂, e₁ g hg, ← hmem]
    exact loaded_value g op _
  · rw [State.mem_setReg, hmem]

/-- Stores, which write memory and no register. -/
theorem store {op : StoreOp} (ht : t.Typed s) (hcovers : t.Covers (.store op rt base offset)) :
    Lowers s t addr (.store op rt base offset) := by
  have hbase := hcovers.use ht (r := base) (by simp [Instr.uses])
  have hrt := hcovers.use ht (r := rt) (by simp [Instr.uses])
  refine yields_atAddr ht hbase fun a s₁ h₁ ha => ?_
  refine Gives.bind (RegTable.gives_getGpr (ht.mono h₁) hrt) fun b s₂ h₂ hb => ?_
  have hwidth : (State.storeWidth op).bits ≤ Ty.i32.width := by cases op <;> decide
  refine Yields.bind (yields_store (ha.mono h₂) hb (by rfl) hwidth) fun _ s₃ h₃ _ => ?_
  exact Yields.pure (.refl (ht.mono (h₁.trans (h₂.trans h₃)))) fun V m m₁ hm e₂ e₁ =>
    Runs.of_store (fun g => rfl) hm e₁ e₂

/-- A single is loaded as a word, a double in one piece. -/
theorem fpLoad (ht : t.Typed s) (hcovers : t.Covers (.fpLoad fmt ft base offset)) :
    Lowers s t addr (.fpLoad fmt ft base offset) := by
  have hbase := hcovers.use ht (r := base) (by simp [Instr.uses])
  cases fmt with
  | single =>
    refine yields_atAddr ht hbase fun a s₁ h₁ ha => ?_
    refine Gives.bind (gives_load ha (by rfl) (by decide)) fun b s₂ h₂ hb => ?_
    refine (RegTable.yields_writeBits (ht.mono (h₁.trans h₂)) hb).imp (fun _ _ _ h => h) ?_
    rintro t' V m m' ⟨rfl, h⟩ e₂ e₁ g hg hmem
    refine ⟨_, rfl, h g _ hg ?_, with_mem _ hmem⟩
    rw [e₂, e₁ g hg, ← hmem]
    exact loaded_value g .word _
  | double =>
    refine yields_atAddr ht hbase fun a s₁ h₁ ha => ?_
    refine Gives.bind (gives_load ha (by rfl) (by decide)) fun b s₂ h₂ hb => ?_
    refine Gives.bind (gives_cast hb (by rfl)) fun c s₃ h₃ hc => ?_
    refine Yields.pure (RegTable.keeps_writeDouble (ht.mono (h₁.trans (h₂.trans h₃))) hc)
      fun V m e₃ e₂ e₁ g hg hmem => ?_
    have hread : V c = g.mem.read (g.effectiveAddr base offset) .double := by
      rw [e₃, e₂, e₁ g hg, ← hmem, eval_bitcast64 _ rfl, and_mask64 _ rfl,
        UInt32.toUInt32_toUInt64]
      rfl
    refine ⟨_, rfl, ?_, with_mem _ hmem⟩
    rw [← hread]
    exact hg.setPairBits ft c

/-- Stores of floating-point registers, the two words of a double in order. -/
theorem fpStore (ht : t.Typed s) (hcovers : t.Covers (.fpStore fmt ft base offset)) :
    Lowers s t addr (.fpStore fmt ft base offset) := by
  have hbase := hcovers.use ht (r := base) (by simp [Instr.uses])
  have hft := hcovers.uses (.fpr ft fmt) (by simp [Instr.uses])
  cases fmt with
  | single =>
    refine yields_atAddr ht hbase fun a s₁ h₁ ha => ?_
    refine Gives.bind (RegTable.gives_readBits (ht.mono h₁) (hft _ (by simp [Tracked.units])))
      fun b s₂ h₂ hb => ?_
    refine Yields.bind (yields_store (ha.mono h₂) hb (by rfl) (by decide)) fun _ s₃ h₃ _ => ?_
    exact Yields.pure (.refl (ht.mono (h₁.trans (h₂.trans h₃)))) fun V m m₁ hm e₂ e₁ =>
      Runs.of_store (fun g => rfl) hm e₁ e₂
  | double =>
    refine yields_atAddr ht hbase fun a s₁ h₁ ha => ?_
    refine Gives.bind (RegTable.gives_readDouble (ht.mono h₁) (hft _ (by simp [Tracked.units]))
      (hft _ (by simp [Tracked.units]))) fun b s₂ h₂ hb => ?_
    refine Gives.bind (gives_cast hb (by rfl)) fun c s₃ h₃ hc => ?_
    refine Yields.bind (yields_store (ha.mono (h₂.trans h₃)) hc (by rfl) (by decide))
      fun _ s₄ h₄ _ => ?_
    refine Yields.pure (.refl (ht.mono (h₁.trans (h₂.trans (h₃.trans h₄)))))
      fun V m m₁ hm e₃ e₂ e₁ => Runs.of_store (fun g => rfl) hm e₁ fun g hg => ?_
    rw [e₃, e₂ g hg, eval_bitcast64 _ rfl]

/-! ### Floating-point instructions -/

/-- Arithmetic on two floating-point registers. -/
theorem fpAlu {op : FpAluOp} (ht : t.Typed s) (hcovers : t.Covers (.fpAlu op fmt fd fs ft)) :
    Lowers s t addr (.fpAlu op fmt fd fs ft) := by
  have hfs := hcovers.uses (.fpr fs fmt) (by simp [Instr.uses])
  have hft := hcovers.uses (.fpr ft fmt) (by simp [Instr.uses])
  have hop : (fpAluOp op).isFloat = (fpTy fmt).isFloat := by cases op <;> cases fmt <;> rfl
  refine Gives.bind (RegTable.gives_readFp ht hfs) fun a s₁ h₁ ha => ?_
  refine Gives.bind (RegTable.gives_readFp (ht.mono h₁) hft) fun b s₂ h₂ hb => ?_
  refine Gives.bind (gives_binary (ha.mono h₂) hb hop) fun c s₃ h₃ hc => ?_
  refine (yields_writeResult _ (ht.mono (h₁.trans (h₂.trans h₃))) hc (execute_fpAlu op)).imp
    (fun _ _ _ h => h) fun t' V m m' h e₃ e₂ e₁ => h (fun g hg => ?_) ?_
  · rw [e₃, e₁ g hg, e₂ g hg]
  · rintro rfl
    rw [e₃]
    exact binary_f32 _ _ _

/-- Operations on one floating-point register, but for those that convert a format to itself. -/
theorem fpUnary {op : FpUnaryOp} (ht : t.Typed s) (hcovers : t.Covers (.fpUnary op fd fs))
    (hconvert : ∀ fmt, op ≠ .convert fmt fmt) : Lowers s t addr (.fpUnary op fd fs) :=
  yields_lowerFpUnary ht (hcovers.uses (.fpr fs op.source) (by simp [Instr.uses])) hconvert

/-- Comparisons, which set one bit of the condition register. -/
theorem fpCompare {cond : FpCond} {cc : Fin 8} (ht : t.Typed s)
    (hcovers : t.Covers (.fpCompare cond fmt cc fs ft)) :
    Lowers s t addr (.fpCompare cond fmt cc fs ft) := by
  have hfs := hcovers.uses (.fpr fs fmt) (by simp [Instr.uses])
  have hft := hcovers.uses (.fpr ft fmt) (by simp [Instr.uses])
  have hfccr := hcovers.uses (.fcr .fccr) (by simp [Instr.uses]) (.fcr .fccr)
    (by simp [Tracked.units])
  refine Gives.bind (RegTable.gives_readFp ht hfs) fun a s₁ h₁ ha => ?_
  refine Gives.bind (RegTable.gives_readFp (ht.mono h₁) hft) fun b s₂ h₂ hb => ?_
  refine Gives.bind (RegTable.gives_getFcr (ht.mono (h₁.trans h₂)) hfccr) fun c s₃ h₃ hc => ?_
  refine Gives.bind (gives_lowerCompare (ha.mono (h₂.trans h₃)) (hb.mono h₃) hc)
    fun d s₄ h₄ hd => ?_
  refine Yields.pure (RegTable.keeps_setFcr (ht.mono (h₁.trans (h₂.trans (h₃.trans h₄)))) .fccr hd)
    fun V m e₄ e₃ e₂ e₁ => Runs.of_quiet rfl fun g hg => ⟨_, rfl, hg.setFcr .fccr ?_, rfl⟩
  rw [e₄ _ (e₃ g hg), e₁ g hg, e₂ g hg, value_fpBits, value_fpBits]

/-- Moving the bits of a floating-point register to a general one. -/
theorem moveFromFpu (ht : t.Typed s) (hcovers : t.Covers (.moveFromFpu rt fs)) :
    Lowers s t addr (.moveFromFpu rt fs) := by
  have hfs := hcovers.uses (.fpr fs .single) (by simp [Instr.uses])
  refine Gives.bind (RegTable.gives_readBits ht (hfs _ (by simp [Tracked.units])))
    fun a s₁ h₁ ha => ?_
  exact (yields_setGpr (ht.mono h₁) ha fun g => rfl).imp (fun _ _ _ h => h)
    fun t' V m m' h e₁ => h e₁

/-- Moving a word to a floating-point register, as its bits. -/
theorem moveToFpu (ht : t.Typed s) (hcovers : t.Covers (.moveToFpu rt fs)) :
    Lowers s t addr (.moveToFpu rt fs) := by
  have hrt := hcovers.use ht (r := rt) (by simp [Instr.uses])
  refine Gives.bind (RegTable.gives_getGpr ht hrt) fun a s₁ h₁ ha => ?_
  exact (yields_writeWord (ht.mono h₁) ha fun g => rfl).imp (fun _ _ _ h => h)
    fun t' V m m' h e₁ => h e₁

/-- Reading a control register. -/
theorem moveFromFcr {c : Fcr} (ht : t.Typed s) (hcovers : t.Covers (.moveFromFcr rt c)) :
    Lowers s t addr (.moveFromFcr rt c) := by
  have hc := hcovers.uses (.fcr c) (by simp [Instr.uses]) (.fcr c) (by simp [Tracked.units])
  refine Gives.bind (RegTable.gives_getFcr ht hc) fun a s₁ h₁ ha => ?_
  exact (yields_setGpr (ht.mono h₁) ha fun g => rfl).imp (fun _ _ _ h => h)
    fun t' V m m' h e₁ => h e₁

/-- Writing a control register. -/
theorem moveToFcr {c : Fcr} (ht : t.Typed s) (hcovers : t.Covers (.moveToFcr rt c)) :
    Lowers s t addr (.moveToFcr rt c) := by
  have hrt := hcovers.use ht (r := rt) (by simp [Instr.uses])
  refine Gives.bind (RegTable.gives_getGpr ht hrt) fun a s₁ h₁ ha => ?_
  exact Yields.pure (RegTable.keeps_setFcr (ht.mono h₁) c ha) fun V m e₁ =>
    Runs.of_quiet rfl fun g hg => ⟨_, rfl, hg.setFcr c (e₁ g hg), rfl⟩

end Lowers

/-- The code for an instruction whose result is not taken as known. -/
theorem yields_lowerPlain (ht : t.Typed s) (hcovers : t.Covers insn) (hcan : insn.canCompile = true)
    (hflow : insn.hasDelaySlot = false)
    (hconvert : ∀ fmt fd fs, insn ≠ .fpUnary (.convert fmt fmt) fd fs) :
    Yields s (lowerPlain t insn) (fun t' s' => t.Keeps t' s') (Runs t addr insn) := by
  -- Transfers and what cannot be compiled are excluded; every other constructor has its lemma.
  cases insn with
  | branch | branchZero | branchZeroLink | branchFp | jump | jumpLink | jumpReg | jumpLinkReg =>
    cases hflow
  | trap | syscall | breakpoint | unknown => cases hcan
  | nop => exact Lowers.nop ht
  | sync => exact Lowers.sync ht
  | shift op rd rt amount => exact Lowers.shift ht hcovers
  | alu op rd rs rt => exact Lowers.alu ht hcovers hcan
  | mulDiv op rs rt => exact Lowers.mulDiv ht hcovers
  | hiLoMove dir r => exact Lowers.hiLoMove ht hcovers
  | unary op rd src => exact Lowers.unary ht hcovers
  | imm op rt rs value => exact Lowers.imm ht hcovers hcan
  | loadUpper rt value => exact Lowers.loadUpper ht
  | load op rt base offset => exact Lowers.load ht hcovers
  | store op rt base offset => exact Lowers.store ht hcovers
  | fpAlu op fmt fd fs ft => exact Lowers.fpAlu ht hcovers
  | fpUnary op fd fs =>
    exact Lowers.fpUnary ht hcovers fun fmt h => hconvert fmt fd fs (by rw [h])
  | fpCompare cond fmt cc fs ft => exact Lowers.fpCompare ht hcovers
  | fpLoad fmt ft base offset => exact Lowers.fpLoad ht hcovers
  | fpStore fmt ft base offset => exact Lowers.fpStore ht hcovers
  | moveFromFpu rt fs => exact Lowers.moveFromFpu ht hcovers
  | moveToFpu rt fs => exact Lowers.moveToFpu ht hcovers
  | moveFromFcr rt c => exact Lowers.moveFromFcr ht hcovers
  | moveToFcr rt c => exact Lowers.moveToFcr ht hcovers

/-! ## Known results -/

/-- An instruction whose result is known writes it to one general register. -/
theorem execute_of_fold {regs : ConstRegs} {x : UInt32} (h : regs.fold addr insn = some x)
    (hcan : insn.canCompile = true) (hflow : insn.hasDelaySlot = false) :
    ∃ rd, insn.defs = [.gpr rd] ∧ ∀ g : State, regs.Holds g →
      execute g addr insn = .ok (g.setReg rd x) := by
  obtain ⟨rd, hdefs, hwrites⟩ := ConstRegs.execute_of_fold h hflow
  -- What can be compiled does not fault.
  have hok : ∀ g : State, ∃ g', execute g addr insn = .ok g' := by
    intro g
    cases insn with
    | branchZeroLink | jumpLink | jumpLinkReg => cases hflow
    | shift | unary | loadUpper => exact ⟨_, rfl⟩
    | alu op | imm op =>
      cases op
      case addS => cases hcan
      try case subS => cases hcan
      all_goals exact ⟨_, rfl⟩
    | _ => cases h
  refine ⟨rd, hdefs, fun g hg => ?_⟩
  obtain ⟨g', hrun⟩ := hok g
  rw [hrun, hwrites g g' hg hrun]

/-- Writes to the zero register are dropped. -/
theorem setReg_zero (g : State) (x : UInt32) : g.setReg .zero x = g := rfl

/-- The code for an instruction whose result is known. -/
theorem yields_lowerKnown {x : UInt32} (ht : t.Typed s) (hfold : t.consts.fold addr insn = some x)
    (hcan : insn.canCompile = true) (hflow : insn.hasDelaySlot = false) :
    Yields s (liftM (lowerKnown t insn x)) (fun t' s' => t.Keeps t' s') (Runs t addr insn) := by
  obtain ⟨rd, hdefs, hrun⟩ := execute_of_fold hfold hcan hflow
  have hknown : ∀ V g, t.Agrees V g → ∀ r c, t.consts.constant? r = some c → g.reg r = c :=
    fun V g hg r c hc => (hg (.gpr r)).known r c rfl hc
  -- A write to the zero register has no code.
  by_cases hzero : rd = .zero
  · have heffective : insn.effectiveDefs = [] := by simp [Instr.effectiveDefs, hdefs, hzero]
    have hcode : lowerKnown t insn x = pure t := by simp [lowerKnown, heffective]
    rw [hcode, liftBuild_pure]
    refine Yields.pure (.refl ht) fun V m => Runs.of_quiet rfl fun g hg => ⟨g, ?_, hg, rfl⟩
    rw [hrun g (hknown V g hg), hzero, setReg_zero]
  · have heffective : insn.effectiveDefs = [.gpr rd] := by simp [Instr.effectiveDefs, hdefs, hzero]
    have hcode : lowerKnown t insn x =
        (do return t.setGpr rd (← word x) (.constant x)) := by
      simp [lowerKnown, heffective]
    rw [hcode, liftBuild_bind]
    refine Gives.bind (gives_word x) fun v s₁ h₁ hv => ?_
    rw [liftBuild_pure]
    refine Yields.pure (RegTable.keeps_setGpr (ht.mono h₁) rd _ hv) fun V m e₁ =>
      Runs.of_quiet rfl fun g hg => ⟨_, hrun g (hknown V g hg), hg.setGpr rd e₁ fun c hc => ?_,
        State.mem_setReg ..⟩
    exact Option.some.inj hc

/-- The code for an instruction that does not transfer control does what the instruction does. -/
theorem yields_lower {fold : Bool} (ht : t.Typed s) (hcovers : t.Covers insn)
    (hcan : insn.canCompile = true) (hflow : insn.hasDelaySlot = false)
    (hconvert : ∀ fmt fd fs, insn ≠ .fpUnary (.convert fmt fmt) fd fs) :
    Yields s (lower fold t addr insn) (fun t' s' => t.Keeps t' s') (Runs t addr insn) := by
  unfold lower
  cases hfold : (if fold then t.consts.fold addr insn else none) with
  | none => exact yields_lowerPlain ht hcovers hcan hflow hconvert
  | some x =>
    have hx : t.consts.fold addr insn = some x := by
      split at hfold
      · exact hfold
      · cases hfold
    exact yields_lowerKnown ht hx hcan hflow

/-! ## Conditions -/

/-- The comparison with zero in the code is that of the branch. -/
theorem eval_zeroCC (cond : ZeroCond) (a : UInt32) :
    (zeroCC cond).eval .i32 a.toUInt64 (0 : UInt32).toUInt64 = cond.eval a := by
  cases cond <;>
    simp only [zeroCC, IntCC.eval, Ty.width, signExtend_word, Int32.toInt64_le, Int32.toInt64_lt] <;>
    rfl

/-- The truth value that decides a conditional branch. -/
theorem gives_lowerCondition {taken notTaken : UInt32} {likely : Bool} (ht : t.Typed s)
    (hcovers : t.Covers insn) (hcan : insn.canCompile = true)
    (hbranch : insn.control addr = .branch taken notTaken likely) :
    Gives s (lowerCondition t insn) .i1 fun V _ y =>
      ∀ g : State, t.Agrees V g → y = (g.taken insn).toUInt64 := by
  cases insn with
  | branch cond rs rt offset likely =>
    have hrs := hcovers.use ht (r := rs) (by simp [Instr.uses])
    have hrt := hcovers.use ht (r := rt) (by simp [Instr.uses])
    refine Gives.then (RegTable.gives_getGpr ht hrs) fun a s₁ h₁ ha => ?_
    refine Gives.then (RegTable.gives_getGpr (ht.mono h₁) hrt) fun b s₂ h₂ hb => ?_
    refine (gives_icmp (ha.mono h₂) hb (by rfl)).imp fun V m y hy e₂ e₁ g hg => ?_
    rw [hy, e₁ g hg, e₂ g hg]
    cases cond
    · exact congrArg Bool.toUInt64 (eval_eq _ _)
    · exact congrArg Bool.toUInt64 (eval_ne _ _)
  | branchZero cond rs offset likely =>
    have hrs := hcovers.use ht (r := rs) (by simp [Instr.uses])
    refine Gives.then (gives_word 0) fun z s₁ h₁ hz => ?_
    refine Gives.then (RegTable.gives_getGpr (ht.mono h₁) hrs) fun a s₂ h₂ ha => ?_
    refine (gives_icmp ha (hz.mono h₂) (by rfl)).imp fun V m y hy e₂ e₁ g hg => ?_
    rw [hy, e₂ g hg, e₁, eval_zeroCC]
    rfl
  | branchFp onTrue cc offset likely =>
    have hfccr := hcovers.uses (.fcr .fccr) (by simp [Instr.uses]) (.fcr .fccr)
      (by simp [Tracked.units])
    refine Gives.then (gives_word _) fun amount s₁ h₁ hamount => ?_
    refine Gives.then (RegTable.gives_getFcr (ht.mono h₁) hfccr) fun a s₂ h₂ ha => ?_
    refine Gives.then (gives_binaryWord ha (hamount.mono h₂) rfl eval_lshr) fun b s₃ h₃ hb => ?_
    refine Gives.then (gives_word 1) fun one s₄ h₄ hone => ?_
    refine Gives.then (gives_binaryWord (hb.mono h₄) hone rfl eval_and) fun c s₅ h₅ hc => ?_
    refine Gives.then (gives_word 0) fun z s₆ h₆ hz => ?_
    refine (gives_icmp (hc.mono h₆) hz (by rfl)).imp fun V m y hy e₆ e₅ e₄ e₃ e₂ e₁ g hg => ?_
    -- The condition bit is shifted to the lowest place and masked, which is testing it.
    have hbit := e₅ _ _ (e₃ _ _ (e₂ g hg) e₁) e₄
    have htest := fccr_and (g.fcrBits .fccr) cc
    rw [hy, hbit, e₆]
    congr 1
    cases onTrue with
    | true =>
      simp only [if_true, eval_ne, State.taken, State.conditionCode, bne, htest]
      simp
    | false =>
      simp only [Bool.false_eq_true, if_false, eval_eq, State.taken, State.conditionCode, bne, htest]
      simp
  | branchZeroLink => cases hcan
  | _ => cases hbranch

end HotRegion.Lowering
