import HotRegion.Lowering.Instruction
import HotRegion.Proofs.Ssa.Built
import HotRegion.Proofs.Ssa.Watched
import HotRegion.Proofs.Ssa.Words

/-!
# Emitting code

A logic for computations that emit straight-line code. `Yields s x T P` says that `x` succeeds at
the site `s`, that its result satisfies `T` at the new site, and that `P` holds of the machines
before and after whenever the equations of the emitted code do.

## Key results

- `Yields.bind`: one computation after the other
- `gives_binary`, `gives_cast` and so on: the value that each instruction computes
-/

namespace HotRegion.Lowering

open Ssa
open Machine (Loc Width)

/-! ## Sites -/

/-- A function under construction, and the values that may be read in its current block. -/
structure Site where
  builder : Builder
  avail : Value → Prop

namespace Site

variable {s s' : Site} {v : Value} {ty : Ty}

def ctx (s : Site) : Context := ⟨s.builder.function.types, s.avail⟩

/-- The value may be read here and has the given type. -/
abbrev Has (s : Site) (v : Value) (ty : Ty) : Prop := s.ctx.Has v ty

/-- All that is at hand at `s` is at hand at `s'`. -/
abbrev Le (s s' : Site) : Prop := s.ctx.Le s'.ctx

end Site

/-- The function with more code at the end of its current block. -/
def appendCode (b : Builder) (types : Array Ty) (code : List Inst) : Builder :=
  { b with
    function := { b.function with
      types := types
      blocks := b.function.blocks.modify b.current.index fun blk =>
        { blk with insts := blk.insts ++ code.toArray } } }

/-- The site `s'` is `s` after `code`. -/
structure Grows (s : Site) (code : List Inst) (s' : Site) : Prop where
  ordered : Ssa.Code s.ctx code s'.ctx
  builder : s'.builder = appendCode s.builder s'.builder.function.types code

variable {s s' s₁ s₂ : Site} {code rest : List Inst} {ty ty' : Ty} {v w : Value} {α β : Type}

/-- Two changes of one entry are one change. -/
theorem modify_modify {γ : Type} (a : Array γ) (i : Nat) (g h : γ → γ) :
    (a.modify i g).modify i h = a.modify i fun x => h (g x) := by
  apply Array.ext
  · simp
  · intro j h₁ h₂
    simp only [Array.getElem_modify]
    split <;> rfl

/-- A change that does nothing changes nothing. -/
theorem modify_id {γ : Type} (a : Array γ) (i : Nat) : (a.modify i fun x => x) = a := by
  apply Array.ext
  · simp
  · intro j h₁ h₂
    simp [Array.getElem_modify]

/-- No code changes nothing. -/
theorem appendCode_nil (b : Builder) : appendCode b b.function.types [] = b := by
  simp [appendCode, modify_id]

/-- Code after code is one piece of code. -/
theorem appendCode_appendCode (b : Builder) (types types' : Array Ty) (code rest : List Inst) :
    appendCode (appendCode b types code) types' rest = appendCode b types' (code ++ rest) := by
  simp [appendCode, modify_modify]

/-- No code leaves the builder as it is. -/
theorem Grows.refl (s : Site) : Grows s [] s := ⟨.nil _, (appendCode_nil _).symm⟩

/-- Code after code grows the block by both. -/
theorem Grows.trans (h : Grows s code s₁) (h' : Grows s₁ rest s₂) : Grows s (code ++ rest) s₂ := by
  refine ⟨h.ordered.append h'.ordered, ?_⟩
  rw [h'.builder, h.builder, appendCode_appendCode]
  rfl

/-- Values and types are only added. -/
theorem Grows.le (h : Grows s code s') : s.Le s' := h.ordered.le

/-! ## The logic -/

/-- The computation succeeds at `s` and emits code. Its result satisfies `T` at the new site, and
the values and machines of every run satisfy `P`. -/
def Yields (s : Site) (x : Emit α) (T : α → Site → Prop)
    (P : α → (Value → UInt64) → Watched → Watched → Prop) : Prop :=
  ∃ a s' code, x s.builder = .ok (a, s'.builder) ∧ Grows s code s' ∧ T a s' ∧
    ∀ f V m m', s'.ctx.Fits f → Sat f V code m m' → P a V m m'

/-- The computation emits code that computes a value of type `ty` and leaves the machine alone. -/
def Gives (s : Site) (x : Emit Value) (ty : Ty)
    (P : (Value → UInt64) → Watched → UInt64 → Prop) : Prop :=
  Yields s x (fun v s' => s'.Has v ty) fun v V m m' => m' = m ∧ P V m (V v)

variable {x : Emit α} {k : α → Emit β} {T T' : α → Site → Prop}
  {P P' : α → (Value → UInt64) → Watched → Watched → Prop} {U : β → Site → Prop}
  {Q : β → (Value → UInt64) → Watched → Watched → Prop}

/-- Computations one after the other, where the second may use what the first one made. -/
theorem Yields.bind (hx : Yields s x T P)
    (hk : ∀ a s₁, s.Le s₁ → T a s₁ → Yields s₁ (k a) U fun b V m₁ m' =>
      ∀ m, P a V m m₁ → Q b V m m') : Yields s (x >>= k) U Q := by
  obtain ⟨a, s₁, c₁, hrun₁, hgrows₁, hT, hP⟩ := hx
  obtain ⟨b, s₂, c₂, hrun₂, hgrows₂, hU, hQ⟩ := hk a s₁ hgrows₁.le hT
  refine ⟨b, s₂, c₁ ++ c₂, ?_, hgrows₁.trans hgrows₂, hU, fun f V m m' hfits hsat => ?_⟩
  · change (x s.builder >>= fun p => k p.1 p.2) = _
    rw [hrun₁]
    exact hrun₂
  · obtain ⟨m₁, h₁, h₂⟩ := sat_append.1 hsat
    exact hQ f V m₁ m' hfits h₂ m (hP f V m m₁ (hfits.mono hgrows₂.le) h₁)

/-- A computation yields whatever follows from what it yields. -/
theorem Yields.imp (hx : Yields s x T P) (hT : ∀ a s', s.Le s' → T a s' → T' a s')
    (hP : ∀ a V m m', P a V m m' → P' a V m m') : Yields s x T' P' := by
  obtain ⟨a, s', code, hrun, hgrows, ha, hsem⟩ := hx
  exact ⟨a, s', code, hrun, hgrows, hT a s' hgrows.le ha,
    fun f V m m' hfits hsat => hP a V m m' (hsem f V m m' hfits hsat)⟩

/-- Emitted code only adds stores. -/
theorem Yields.watch (hx : Yields s x T P) :
    Yields s x T fun a V m m' => P a V m m' ∧ m.Le m' := by
  obtain ⟨a, s', code, hrun, hgrows, ha, hsem⟩ := hx
  exact ⟨a, s', code, hrun, hgrows, ha, fun f V m m' hfits hsat =>
    ⟨hsem f V m m' hfits hsat, hsat.le⟩⟩

/-- The result is that of the computation at the site. -/
theorem Yields.ran (hx : Yields s x T P) :
    Yields s x (fun a s' => T a s' ∧ x s.builder = .ok (a, s'.builder)) P := by
  obtain ⟨a, s', code, hrun, hgrows, ha, hsem⟩ := hx
  exact ⟨a, s', code, hrun, hgrows, ⟨ha, hrun⟩, hsem⟩

/-- A value alone needs no code and changes nothing. -/
theorem Yields.pure {a : α} (hT : T a s) (hP : ∀ V m, P a V m m) :
    Yields s (Pure.pure a : Emit α) T P := by
  refine ⟨a, s, [], rfl, .refl s, hT, fun f V m m' _ hsat => ?_⟩
  rw [sat_nil.1 hsat]
  exact hP V m

/-- A value that is at hand already. -/
theorem Yields.ok {a : α} {e : Except Breakdown α} (he : e = .ok a) (hT : T a s)
    (hP : ∀ V m, P a V m m) : Yields s (liftM e : Emit α) T P := by
  subst he
  exact Yields.pure hT hP

/-- A computed value that further code goes on with. -/
theorem Gives.bind {y : Emit Value} {k : Value → Emit β}
    {R : (Value → UInt64) → Watched → UInt64 → Prop} (hy : Gives s y ty R)
    (hk : ∀ v s₁, s.Le s₁ → s₁.Has v ty → Yields s₁ (k v) U fun b V m m' =>
      R V m (V v) → Q b V m m') : Yields s (y >>= k) U Q := by
  refine Yields.bind hy fun v s₁ hle hv => (hk v s₁ hle hv).imp (fun _ _ _ h => h) ?_
  rintro b V m₁ m' hQ m ⟨rfl, hR⟩
  exact hQ hR

/-- A value has every property that follows from the one it has. -/
theorem Gives.imp {y : Emit Value} {R R' : (Value → UInt64) → Watched → UInt64 → Prop}
    (hy : Gives s y ty R) (h : ∀ V m x, R V m x → R' V m x) : Gives s y ty R' :=
  Yields.imp hy (fun _ _ _ h => h) fun _ V m _ hm => ⟨hm.1, h V m _ hm.2⟩

/-- A computed value from which another one is computed. -/
theorem Gives.then {y : Emit Value} {k : Value → Emit Value}
    {R R' : (Value → UInt64) → Watched → UInt64 → Prop} (hy : Gives s y ty R)
    (hk : ∀ v s₁, s.Le s₁ → s₁.Has v ty → Gives s₁ (k v) ty' fun V m x => R V m (V v) → R' V m x) :
    Gives s (y >>= k) ty' R' :=
  Gives.bind hy fun v s₁ hle hv => Yields.imp (hk v s₁ hle hv) (fun _ _ _ h => h)
    fun _ _ _ _ h hR => ⟨h.1, h.2 hR⟩

/-- Steps of the builder are steps of the generator. -/
theorem liftBuild_bind (y : Build α) (k : α → Build β) :
    (liftM (y >>= k) : Emit β) = (liftM y : Emit α) >>= fun a => (liftM (k a) : Emit β) := rfl

/-- A value alone is one in the generator too. -/
theorem liftBuild_pure (a : α) : (liftM (Pure.pure a : Build α) : Emit α) = Pure.pure a := rfl

/-- The steps of an attempt are steps of the code generator. -/
theorem liftM_bind (y : Attempt α) (k : α → Attempt β) :
    (liftM (y >>= k) : Emit β) = (liftM y : Emit α) >>= fun a => (liftM (k a) : Emit β) := by
  funext b
  change Except.mapError _ (y b >>= fun p => k p.1 p.2) =
    (Except.mapError _ (y b) >>= fun p => Except.mapError _ (k p.1 p.2))
  cases y b <;> rfl

theorem liftM_pure (a : α) : (liftM (Pure.pure a : Attempt α) : Emit α) = Pure.pure a := rfl

/-! ## Instructions -/

/-- A new instruction is code of one instruction, with a new value. -/
theorem define_eq (b : Builder) (ty : Ty) (inst : Value → Inst) :
    Build.define ty inst b = (⟨b.function.types.size⟩,
      appendCode b (b.function.types.push ty) [inst ⟨b.function.types.size⟩]) := rfl

/-- An instruction without a result is code of one instruction. -/
theorem push_eq (b : Builder) (inst : Inst) :
    Build.push inst b = ((), appendCode b b.function.types [inst]) := rfl

/-- Emitting an instruction that defines the next value. -/
private theorem gives_define {inst : Value → Inst} {R : (Value → UInt64) → Watched → UInt64 → Prop}
    (hdst : (inst s.ctx.next).dst? = some s.ctx.next) (hchecks : (inst s.ctx.next).Checks s.ctx ty)
    (hafter : ∀ V m, (inst s.ctx.next).after V m = m)
    (hR : ∀ f V m, (s.ctx.push ty).Fits f → (inst s.ctx.next).Holds f V m → R V m (V s.ctx.next)) :
    Gives s (liftM (Build.define ty inst)) ty R := by
  let s' : Site := ⟨appendCode s.builder (s.builder.function.types.push ty) [inst s.ctx.next],
    (s.ctx.push ty).avail⟩
  refine ⟨s.ctx.next, s', [inst s.ctx.next], ?_, ⟨?_, rfl⟩, s.ctx.has_next ty,
    fun f V m m' hfits hsat => ?_⟩
  · exact congrArg Except.ok (define_eq s.builder ty inst)
  · exact .define ty hdst hchecks (.nil _)
  · rw [sat_cons, sat_nil, hafter] at hsat
    exact ⟨hsat.2, hR f V m hfits hsat.1⟩

/-- A value at hand has a type in the builder. -/
theorem types_of_has (h : s.Has v ty) : s.builder.function.types[v.index]? = some ty := h.typed

/-- The type of a value at hand is looked up with success. -/
theorem ty_bind (h : s.Has v ty) (k : Ty → Emit α) :
    ((liftM (Build.ty v) : Emit Ty) >>= k) s.builder = k ty s.builder := by
  have hty : Build.ty v s.builder = .ok (ty, s.builder) := by
    unfold Build.ty
    rw [types_of_has h]
  change (Except.mapError _ (Build.ty v s.builder) >>= fun p => k p.1 p.2) = _
  rw [hty]
  rfl

/-- A constant has its bits, but for those that its type has no room for. -/
theorem gives_const (ty : Ty) (bits : UInt64) :
    Gives s (liftM (Build.const ty bits)) ty fun _ _ x => x = bits &&& ty.mask :=
  gives_define rfl trivial (fun _ _ => rfl) fun _ _ _ _ h => h

/-- An instruction whose result has the type of a value at hand. -/
private theorem gives_defineLike {inst : Value → Inst} (hv : s.Has v ty)
    {R : (Value → UInt64) → Watched → UInt64 → Prop} (h : Gives s (liftM (Build.define ty inst)) ty R) :
    Gives s (liftM (Build.defineLike v inst)) ty R := by
  obtain ⟨w, s', code, hrun, rest⟩ := h
  refine ⟨w, s', code, ?_, rest⟩
  change Except.mapError _ (Build.defineLike v inst s.builder) = _
  rw [Builder.defineLike_eq_ok.2 ⟨ty, types_of_has hv, rfl⟩]
  exact hrun

/-- An operation on two values of one type. -/
theorem gives_binary {op : BinOp} {lhs rhs : Value} (hl : s.Has lhs ty) (hr : s.Has rhs ty)
    (hop : op.isFloat = ty.isFloat) :
    Gives s (liftM (Build.binary op lhs rhs)) ty fun V _ x => x = op.eval ty (V lhs) (V rhs) := by
  refine gives_defineLike hl (gives_define rfl ⟨hl, hr, hop⟩ (fun _ _ => rfl) fun f V m hfits h => ?_)
  simpa [Inst.Holds, Inst.assigned, hfits.ty_next] using h

/-- An operation on one value. -/
theorem gives_unary {op : UnOp} {src : Value} (hs : s.Has src ty) (hop : op.isFloat = ty.isFloat) :
    Gives s (liftM (Build.unary op src)) ty fun V _ x => x = op.eval ty (V src) := by
  refine gives_defineLike hs (gives_define rfl ⟨hs, hop⟩ (fun _ _ => rfl) fun f V m hfits h => ?_)
  simpa [Inst.Holds, Inst.assigned, hfits.ty_next] using h

/-- A comparison of integers. -/
theorem gives_icmp {cond : IntCC} {lhs rhs : Value} (hl : s.Has lhs ty) (hr : s.Has rhs ty)
    (hint : ty.isInt = true) :
    Gives s (liftM (Build.icmp cond lhs rhs)) .i1 fun V _ x =>
      x = (cond.eval ty (V lhs) (V rhs)).toUInt64 := by
  refine gives_define rfl ⟨rfl, ty, hl, hr, hint⟩ (fun _ _ => rfl) fun f V m hfits h => ?_
  rw [Inst.Holds, Inst.assigned, hfits.ty_eq (hl.mono (s.ctx.le_push .i1))] at h
  exact h

/-- A comparison of floating-point numbers. -/
theorem gives_fcmp {cond : FloatCC} {lhs rhs : Value} (hl : s.Has lhs ty) (hr : s.Has rhs ty)
    (hfloat : ty.isFloat = true) :
    Gives s (liftM (Build.fcmp cond lhs rhs)) .i1 fun V _ x =>
      x = (cond.eval (ty.value (V lhs)) (ty.value (V rhs))).toUInt64 := by
  refine gives_define rfl ⟨rfl, ty, hl, hr, hfloat⟩ (fun _ _ => rfl) fun f V m hfits h => ?_
  rw [Inst.Holds, Inst.assigned, hfits.ty_eq (hl.mono (s.ctx.le_push .i1))] at h
  exact h

/-- A choice between two values of one type. -/
theorem gives_select {cond ifTrue ifFalse : Value} (hc : s.Has cond .i1) (ht : s.Has ifTrue ty)
    (he : s.Has ifFalse ty) :
    Gives s (liftM (Build.select cond ifTrue ifFalse)) ty fun V _ x =>
      x = if V cond &&& 1 == 1 then V ifTrue else V ifFalse := by
  exact gives_defineLike ht (gives_define rfl ⟨hc, ht, he⟩ (fun _ _ => rfl) fun _ _ _ _ h => h)

/-- A conversion that validation allows. -/
theorem gives_cast {op : CastOp} {src : Value} (hs : s.Has src ty')
    (hallowed : Function.castAllowed op ty' ty = true) :
    Gives s (liftM (Build.cast op src ty)) ty fun V _ x => x = op.eval ty' ty (V src) := by
  refine gives_define rfl ⟨ty', hs, hallowed⟩ (fun _ _ => rfl) fun f V m hfits h => ?_
  rw [Inst.Holds, Inst.assigned, hfits.ty_next, hfits.ty_eq (hs.mono (s.ctx.le_push ty))] at h
  exact h

/-- A load reads the memory of the machine and changes nothing. -/
theorem gives_load {width : Width} {signed : Bool} {addr : Value} (ha : s.Has addr .i32)
    (hint : ty.isInt = true) (hwidth : width.bits ≤ ty.width) :
    Gives s (liftM (Build.load width signed addr ty)) ty fun V m x =>
      let raw := m.state.mem.read (V addr).toUInt32 width
      x = (if signed then (signExtend raw width.bits).toUInt64 else raw) &&& ty.mask := by
  refine gives_define rfl ⟨ha, hint, hwidth⟩ (fun _ _ => rfl) fun f V m hfits h => ?_
  rw [Inst.Holds, Inst.assigned, hfits.ty_next] at h
  exact h

/-- A read of a register gives what the machine has there. -/
theorem gives_readGuest (loc : Loc) :
    Gives s (liftM (Build.readGuest loc)) (.ofLoc loc) fun _ m x =>
      x = m.state.readLoc loc &&& (Ty.ofLoc loc).mask :=
  gives_define rfl rfl (fun _ _ => rfl) fun _ _ _ _ h => h

/-- Emitting an instruction that only changes the machine. -/
private theorem yields_push {inst : Inst} (hdst : inst.dst? = none)
    (hchecks : inst.Checks s.ctx .i1) :
    Yields s (liftM (Build.push inst)) (fun _ _ => True) fun _ V m m' => m' = inst.after V m := by
  refine ⟨(), ⟨appendCode s.builder s.builder.function.types [inst], s.avail⟩, [inst], ?_,
    ⟨.effect hdst hchecks (.nil _), rfl⟩, trivial, fun f V m m' _ hsat => ?_⟩
  · exact congrArg Except.ok (push_eq s.builder inst)
  · rw [sat_cons, sat_nil] at hsat
    exact hsat.2

/-- A store writes the memory of the machine, the value cut to the width. -/
theorem yields_store {width : Width} {addr value : Value} (ha : s.Has addr .i32)
    (hv : s.Has value ty) (hint : ty.isInt = true) (hwidth : width.bits ≤ ty.width) :
    Yields s (liftM (Build.store width addr value)) (fun _ _ => True) fun _ V m m' =>
      m' = GuestMachine.store m (V addr).toUInt32 width (V value &&& widthMask width) :=
  yields_push rfl ⟨ha, ty, hv, hint, hwidth⟩

/-- A write of a register goes to the machine. -/
theorem yields_writeGuest {loc : Loc} {value : Value} (hv : s.Has value (.ofLoc loc)) :
    Yields s (liftM (Build.writeGuest loc value)) (fun _ _ => True) fun _ V m m' =>
      m' = GuestMachine.writeLoc m loc (V value) :=
  yields_push rfl hv

/-- A word as a constant. -/
theorem gives_word (bits : UInt32) :
    Gives s (liftM (word bits)) .i32 fun _ _ x => x = bits.toUInt64 := by
  refine (gives_const .i32 bits.toUInt64).imp fun V m x hx => ?_
  rw [hx, and_mask32 _ rfl]
  simp

end HotRegion.Lowering
