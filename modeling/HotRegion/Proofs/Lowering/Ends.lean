import HotRegion.Proofs.Lowering.Leave
import HotRegion.Proofs.Ssa.Valid

/-!
# Ends of blocks

A block of the function ends where its code leaves it. Emitting the code of instructions gives no
block an end and stays in the current block (`Calm`); the other steps of the walk end the current
block at most, and go on in it or in a new one (`Moves`). So a block that has an end, and is not the
current one, keeps that end.

## Key results

- `calm_bodyCode`: the code of a block ends no block
- `onward_leave`, `onward_lowerBlock`: leaving a block ends that block alone
-/

namespace HotRegion.Lowering

open Isa Analysis Ssa Build
open Region (Tracked Slot)

variable {α β : Type}

/-! ## Computations along a relation -/

section Along

variable {σ ε γ : Type} {R : σ → σ → Prop} [IsPreorder σ R] {x : StateT σ (Except ε) α}
  {k : α → StateT σ (Except ε) β}

/-- The computation only goes from a state to related ones. -/
def Along (R : σ → σ → Prop) (x : StateT σ (Except ε) α) : Prop :=
  ∀ s a s', x s = .ok (a, s') → R s s'

omit [IsPreorder σ R] in
/-- A computation that succeeds is one step after the other. -/
theorem run_bind_eq_ok {s s' : σ} {b : β} (h : (x >>= k) s = .ok (b, s')) :
    ∃ a s₁, x s = .ok (a, s₁) ∧ k a s₁ = .ok (b, s') := by
  obtain ⟨p, hp, hb⟩ := bind_eq_ok.1 h
  exact ⟨p.1, p.2, hp, hb⟩

/-- One computation after another keeps to a preorder that both keep to. -/
theorem Along.bind (hx : Along R x) (hk : ∀ a, Along R (k a)) : Along R (x >>= k) := by
  intro s b s' h
  obtain ⟨a, s₁, ha, hb⟩ := run_bind_eq_ok h
  exact trans_of R (hx s a s₁ ha) (hk a s₁ b s' hb)

/-- A value alone changes no state. -/
@[simp] theorem Along.pure (a : α) : Along R (Pure.pure a : StateT σ (Except ε) α) := by
  intro s a' s' h
  cases h
  exact refl_of R s

omit [IsPreorder σ R] in
/-- A computation that fails leads to no state. -/
@[simp] theorem Along.throw (e : ε) : Along R (throw e : StateT σ (Except ε) α) := by
  intro s a s' h
  cases h

/-- Looking up what may be missing changes no state. -/
@[simp] theorem Along.except (e : Except ε α) : Along R (liftM e : StateT σ (Except ε) α) := by
  intro s a s' h
  cases e with
  | error e => cases h
  | ok a =>
    cases h
    exact refl_of R s

@[simp] theorem Along.map (hx : Along R x) (g : α → β) : Along R (g <$> x) := by
  rw [← bind_pure_comp]
  exact .bind hx fun a => .pure _

/-- A fold keeps to a preorder that each of its steps keeps to. -/
theorem Along.foldlM {f : α → γ → StateT σ (Except ε) α} (hf : ∀ a z, Along R (f a z)) (l : List γ)
    (a : α) : Along R (l.foldlM f a) := by
  induction l generalizing a with
  | nil => exact .pure a
  | cons z l ih =>
    rw [List.foldlM_cons]
    exact .bind (hf a z) ih

/-- A loop keeps to a preorder that its body keeps to. -/
theorem Along.forM {f : γ → StateT σ (Except ε) PUnit} (hf : ∀ z, Along R (f z)) (l : List γ) :
    Along R (l.forM f) := by
  induction l with
  | nil => exact .pure _
  | cons z l ih =>
    exact .bind (hf z) fun _ => ih

end Along

/-! ## Emitting code -/

/-- The current block is the same, and every block ends as before. -/
structure Calm (b b' : Builder) : Prop where
  current : b'.current = b.current
  ends : b'.function.blocks.map (·.terminator) = b.function.blocks.map (·.terminator)

instance : IsPreorder Builder Calm where
  refl _ := ⟨rfl, rfl⟩
  trans _ _ _ h h' := ⟨h'.current.trans h.current, h'.ends.trans h.ends⟩

/-- Changing a block but for its end. -/
theorem calm_modify (b : Builder) (i : Nat) (g : Ssa.Block → Ssa.Block)
    (hg : ∀ blk, (g blk).terminator = blk.terminator) (types : Array Ty)
    (sites : Std.TreeMap Nat (BlockId × Nat)) :
    Calm b ⟨⟨b.function.name, b.function.blocks.modify i g, types⟩, b.current, sites⟩ := by
  refine ⟨rfl, Array.ext_getElem? fun j => ?_⟩
  rw [Array.getElem?_map, Array.getElem?_map, Array.getElem?_modify]
  split
  · cases b.function.blocks[j]? with
    | none => rfl
    | some blk => exact congrArg some (hg blk)
  · rfl

/-- Code is added to the function, and the ends of its blocks are left alone. -/
def Still (x : Build α) : Prop := ∀ b, Calm b (x b).2

/-- Steps of the builder that end no block, one after the other. -/
theorem Still.bind {x : Build α} {k : α → Build β} (hx : Still x) (hk : ∀ a, Still (k a)) :
    Still (x >>= k) :=
  fun b => trans_of Calm (hx b) (hk (x b).1 (x b).2)

@[simp] theorem Still.pure (a : α) : Still (Pure.pure a : Build α) := fun b => refl_of Calm b

/-- A step of the builder that cannot fail is a calm attempt. -/
@[simp] theorem Still.attempt {x : Build α} (h : Still x) : Along Calm (liftM x : Attempt α) := by
  intro b a b' heq
  have heq : x b = (a, b') := Except.ok.inj heq
  rw [show b' = (x b).2 by rw [heq]]
  exact h b

/-- The steps of an attempt are calm as part of the code generator too. -/
@[simp] theorem Along.emit {x : Attempt α} (h : Along Calm x) : Along Calm (liftM x : Emit α) := by
  intro b a b' heq
  change Except.mapError _ (x b) = _ at heq
  cases hx : x b with
  | error e =>
    rw [hx] at heq
    cases heq
  | ok p =>
    rw [hx] at heq
    cases heq
    exact h b _ _ hx

/-- A step of the builder that cannot fail is calm as part of the code generator. -/
@[simp] theorem Still.lift {x : Build α} (h : Still x) : Along Calm (liftM x : Emit α) :=
  h.attempt.emit

/-- A new instruction goes to the end of the current block's code, before its end. -/
@[simp] theorem still_define {ty : Ty} {inst : Value → Inst} : Still (define ty inst) := fun b =>
  calm_modify b b.current.index (fun blk => { blk with insts := blk.insts.push _ }) (fun _ => rfl) _ _

/-- An instruction without a result goes there too. -/
@[simp] theorem still_push {inst : Inst} : Still (push inst) := fun b =>
  calm_modify b b.current.index (fun blk => { blk with insts := blk.insts.push _ }) (fun _ => rfl) _ _

/-- Asking for a type changes nothing. -/
@[simp] theorem calm_ty {v : Value} : Along Calm (ty v) := by
  intro b ty b' h
  unfold Build.ty at h
  split at h
  · cases h
    exact refl_of Calm b
  · cases h

/-- An instruction whose type is that of an operand is a new one like any other. -/
@[simp] theorem calm_defineLike {v : Value} {inst : Value → Inst} : Along Calm (defineLike v inst) :=
  .bind calm_ty fun _ => still_define.attempt

@[simp] theorem still_word {v : UInt32} : Still (word v) := still_define

@[simp] theorem still_const {ty : Ty} {bits : UInt64} : Still (const ty bits) := still_define

@[simp] theorem calm_binary {op : BinOp} {lhs rhs : Value} : Along Calm (binary op lhs rhs) :=
  calm_defineLike

@[simp] theorem calm_unary {op : UnOp} {src : Value} : Along Calm (unary op src) := calm_defineLike

@[simp] theorem still_icmp {cond : IntCC} {lhs rhs : Value} : Still (icmp cond lhs rhs) :=
  still_define

@[simp] theorem calm_select {cond ifTrue ifFalse : Value} :
    Along Calm (select cond ifTrue ifFalse) := calm_defineLike

@[simp] theorem still_cast {op : CastOp} {src : Value} {target : Ty} :
    Still (Build.cast op src target) := still_define

@[simp] theorem still_load {width : Machine.Width} {signed : Bool} {addr : Value} {ty : Ty} :
    Still (load width signed addr ty) := still_define

@[simp] theorem still_store {width : Machine.Width} {addr value : Value} :
    Still (store width addr value) := still_push

@[simp] theorem still_readGuest {loc : Machine.Loc} : Still (readGuest loc) := still_define

@[simp] theorem still_writeGuest {loc : Machine.Loc} {value : Value} :
    Still (writeGuest loc value) := still_push

/-- A phi goes before the other instructions of the current block. -/
@[simp] theorem still_phi {ty : Ty} : Still (phi ty) := fun b =>
  calm_modify b b.current.index (Ssa.Block.insertAt _ (.phi _ [])) (fun _ => rfl) _ _

/-- An input of a phi leaves all ends alone. -/
@[simp] theorem calm_addIncoming {phi v : Value} {pred : BlockId} :
    Along Calm (addIncoming phi pred v) := by
  intro b u b' h
  obtain ⟨site, -, ⟨⟩⟩ := Builder.addIncoming_eq_ok.1 h
  exact calm_modify b _ (Ssa.Block.extendPhi _ pred v) (fun _ => rfl) _ _

/-- A comment leaves all ends alone. -/
theorem calm_setBlockComment {k : BlockId} {text : Option String} :
    Along Calm (setBlockComment k text) := by
  intro b u b' h
  obtain ⟨-, ⟨⟩⟩ := Builder.setBlockComment_eq_ok.1 h
  exact calm_modify b k.index (fun blk => { blk with comment := text }) (fun _ => rfl) _ _

/-! ### Instructions -/

/-- Comparing two words ends no block. -/
theorem calm_compareWord {cond : IntCC} {a b : Value} : Along Calm (compareWord cond a b) :=
  .bind still_icmp.attempt fun _ => still_cast.attempt

/-- A conditional move ends no block. -/
theorem calm_moveIf {cond : IntCC} {rs rt rd : Value} : Along Calm (moveIf cond rs rt rd) :=
  .bind still_word.attempt fun _ => .bind still_icmp.attempt fun _ => calm_select

/-- Arithmetic on two registers ends no block. -/
theorem calm_lowerAlu {op : AluOp} {rs rt rd : Value} {code : Attempt Value}
    (h : lowerAlu op rs rt rd = some code) : Along Calm code := by
  cases op <;> cases h
  case nor => exact .bind calm_binary fun _ => calm_unary
  case setLtS | setLtU => exact calm_compareWord
  case moveIfZero | moveIfNotZero => exact calm_moveIf
  all_goals exact calm_binary

/-- Arithmetic with an immediate ends no block. -/
theorem calm_lowerImm {op : ImmOp} {rs : Value} {value : UInt16} {code : Attempt Value}
    (h : lowerImm op rs value = some code) : Along Calm code := by
  cases op <;> cases h
  case addU => exact .bind still_word.attempt fun _ => calm_binary
  case setLtS | setLtU => exact .bind still_word.attempt fun _ => calm_compareWord
  all_goals
    exact .bind still_word.attempt fun _ => .bind still_word.attempt fun _ => calm_binary

/-- Multiplying and dividing ends no block. -/
@[simp] theorem calm_lowerMulDiv {op : MulDivOp} {rs rt : Value} :
    Along Calm (lowerMulDiv op rs rt) := by
  have hmult : ∀ {ext : CastOp}, Along Calm (lowerMult ext rs rt) :=
    .bind still_cast.attempt fun _ => .bind still_cast.attempt fun _ => .bind calm_binary fun _ =>
      .bind still_const.attempt fun _ => .bind calm_binary fun _ =>
        .bind still_cast.attempt fun _ => .bind still_cast.attempt fun _ => .pure _
  have hdiv : ∀ {quotient remainder : BinOp}, Along Calm (lowerDiv quotient remainder rs rt) :=
    .bind calm_binary fun _ => .bind calm_binary fun _ => .pure _
  cases op with
  | multS | multU => exact hmult
  | divS | divU => exact hdiv

/-- The operations on one register end no block. -/
@[simp] theorem calm_lowerUnary {op : UnaryOp} {v : Value} : Along Calm (lowerUnary op v) := by
  have hextend : ∀ {drop : UInt32}, Along Calm (extendSign drop v) :=
    .bind still_word.attempt fun _ => .bind calm_binary fun _ => calm_binary
  cases op with
  | countLeadingZeros => exact calm_unary
  | signExtendByte | signExtendHalf => exact hextend

/-- Computing an address ends no block. -/
@[simp] theorem calm_lowerAddr {base : Value} {offset : UInt16} :
    Along Calm (lowerAddr base offset) :=
  .bind still_word.attempt fun _ => calm_binary

/-- Setting a condition bit ends no block. -/
@[simp] theorem calm_lowerCompare {cond : FpCond} {cc : Fin 8} {a b fccr : Value} :
    Along Calm (lowerCompare cond cc a b fccr) :=
  .bind still_define.attempt fun _ => .bind still_cast.attempt fun _ =>
    .bind still_word.attempt fun _ => .bind calm_binary fun _ => .bind still_word.attempt fun _ =>
      .bind calm_binary fun _ => calm_binary

@[simp] theorem still_lowBits {v : Value} : Still (RegTable.lowBits v) :=
  .bind still_cast fun _ => still_cast

@[simp] theorem calm_highBits {v : Value} : Along Calm (RegTable.highBits v) :=
  .bind still_cast.attempt fun _ => .bind still_const.attempt fun _ => .bind calm_binary fun _ =>
    still_cast.attempt

variable {t : RegTable} {r : Fpr}

/-- Reading the bits of a floating-point register ends no block, in any form it has. -/
@[simp] theorem calm_readBits : Along Calm (t.readBits r) := by
  unfold RegTable.readBits RegTable.halfBits
  repeat' split
  all_goals simp

/-- Reading a single ends no block. -/
@[simp] theorem calm_readSingle : Along Calm (t.readSingle r) := by
  unfold RegTable.readSingle
  dsimp only
  split
  · exact .pure _
  · exact .bind calm_readBits fun _ => still_cast.lift

/-- Reading a double ends no block, though its halves may have to be joined. -/
@[simp] theorem calm_readDouble : Along Calm (t.readDouble r) := by
  unfold RegTable.readDouble
  split
  · exact .pure _
  · repeat' refine .bind ?_ fun _ => ?_
    all_goals simp

/-- Reading a register in one of the formats ends no block. -/
@[simp] theorem calm_readFp {fmt : FpFormat} : Along Calm (t.readFp fmt r) := by
  cases fmt <;> simp [RegTable.readFp]

/-- Writing one half ends no block, though the other half may have to be taken from a double. -/
@[simp] theorem calm_writeHalf {h : Half} : Along Calm (t.writeHalf r h) := by
  unfold RegTable.writeHalf
  split
  · exact .pure _
  · split
    · exact .bind calm_highBits.emit fun _ => .pure _
    · exact .bind still_lowBits.lift fun _ => .pure _

/-- Writing a register in one of the formats ends no block. -/
@[simp] theorem calm_writeFp {fmt : FpFormat} {v : Value} : Along Calm (t.writeFp fmt r v) := by
  cases fmt <;> simp [RegTable.writeFp, RegTable.writeSingle]

/-- Reading any tracked register ends no block. -/
@[simp] theorem calm_get {fp : FpTouched} {reg : Tracked} : Along Calm (t.get fp reg) := by
  cases reg with
  | fpr r =>
    unfold RegTable.get
    dsimp only
    split <;> simp
  | _ => exact .except _

/-- Writing any tracked register ends no block. -/
@[simp] theorem calm_set {fp : FpTouched} {reg : Tracked} {v : Value} : Along Calm (t.set fp reg v) := by
  cases reg with
  | fpr r =>
    unfold RegTable.set
    dsimp only
    split <;> simp [RegTable.writeSingle, RegTable.writeBits]
  | _ => exact .pure _

/-- Converting and moving floating-point numbers ends no block. -/
theorem calm_lowerFpUnary {op : FpUnaryOp} {fd fs : Fpr} : Along Calm (lowerFpUnary t op fd fs) := by
  unfold lowerFpUnary RegTable.writeBits RegTable.writeSingle
  split
  all_goals repeat' refine .bind ?_ fun _ => ?_
  all_goals simp

/-- The code of an instruction ends no block. -/
theorem calm_lowerPlain {insn : Instr} : Along Calm (lowerPlain t insn) := by
  unfold lowerPlain RegTable.writeBits
  cases insn with
  | alu op rd rs rt =>
    refine .bind (.except _) fun _ => .bind (.except _) fun _ => .bind (.except _) fun _ => ?_
    split
    · next hcode => exact .bind (calm_lowerAlu hcode).emit fun _ => .pure _
    · exact .throw _
  | imm op rt rs value =>
    refine .bind (.except _) fun _ => ?_
    split
    · next hcode => exact .bind (calm_lowerImm hcode).emit fun _ => .pure _
    · exact .throw _
  | hiLoMove move => cases move <;> exact .bind (.except _) fun _ => .pure _
  | fpUnary => exact calm_lowerFpUnary
  | fpLoad fmt | fpStore fmt =>
    cases fmt
    all_goals repeat' refine .bind ?_ fun _ => ?_
    all_goals simp
  | _ =>
    repeat' refine .bind ?_ fun _ => ?_
    all_goals simp

/-- The constants that take the place of a folded instruction end no block. -/
theorem still_lowerKnown {insn : Instr} {v : UInt32} : Still (lowerKnown t insn v) := by
  unfold lowerKnown
  induction insn.effectiveDefs generalizing t with
  | nil => exact .pure t
  | cons ref l ih =>
    rw [List.foldlM_cons]
    refine .bind ?_ fun t => ih
    split
    · exact .bind still_word fun _ => .pure _
    · exact .pure _

/-- Lowering an instruction ends no block, folded or not. -/
theorem calm_lower {fold : Bool} {addr : UInt32} {insn : Instr} :
    Along Calm (lower fold t addr insn) := by
  unfold lower
  split
  · exact still_lowerKnown.lift
  · exact calm_lowerPlain

/-- Computing the condition of a branch ends no block. -/
theorem calm_lowerCondition {insn : Instr} : Along Calm (lowerCondition t insn) := by
  unfold lowerCondition
  split
  all_goals repeat' refine .bind ?_ fun _ => ?_
  all_goals simp

variable {c : Scope} {b : Region.Block}

/-- Counting the instructions of a block does not end it. -/
theorem calm_countInstructions : Along Calm (c.countInstructions b t) := by
  unfold Scope.countInstructions
  split
  · exact .bind still_const.lift fun _ => .bind (.except _) fun _ => .bind calm_binary.emit fun _ =>
      .pure _
  · exact .pure _

/-- Writing all registers back does not end the exit block yet. -/
theorem calm_writeBack : Along Calm (c.writeBack t) := by
  unfold Scope.writeBack
  refine .forM (fun reg => .bind calm_get fun v => .bind calm_ty.emit fun ty => ?_) _
  split
  · exact .bind still_cast.lift fun raw => still_writeGuest.lift
  · exact .bind (.pure _) fun raw => still_writeGuest.lift

/-- Loading all registers does not end the entry block yet. -/
theorem calm_loadLiveIn : Along Calm (c.loadLiveIn t) := by
  unfold Scope.loadLiveIn
  refine .foldlM (fun t reg => .bind still_readGuest.lift fun raw => ?_) _ _
  split
  · exact .bind still_cast.lift fun v => calm_set
  · exact .bind (.pure _) fun v => calm_set

/-- The code of a transfer and its delay slot ends no block; that is left to leaving the block. -/
theorem calm_transferCode {tr : Region.Transfer} {slot : Instr} :
    Along Calm (c.transferCode tr slot t) := by
  have hlinked : Along Calm (c.linkedDelay tr slot t) := by
    refine .bind (Still.lift ?_) fun t => calm_lower
    unfold Scope.linkCode
    split
    all_goals first
      | exact .pure _
      | exact .bind still_word fun _ => .pure _
  unfold Scope.transferCode
  split
  · refine .bind calm_lowerCondition fun cond => ?_
    split
    · exact .bind (.pure _) fun t => .pure _
    · exact .bind calm_lower fun t => .pure _
  · exact .bind hlinked fun t => .pure _
  · split
    · exact .throw _
    · exact .bind (.except _) fun target => .bind hlinked fun t => .pure _
  · exact .throw _

/-- The code of a block does not end it. -/
theorem calm_bodyCode : Along Calm (c.bodyCode b t) := by
  refine .bind calm_countInstructions fun t => ?_
  split
  · exact .bind (.foldlM (fun t p => calm_lower) _ _) fun t =>
      .bind (.except _) fun slot => calm_transferCode
  · exact .bind (.foldlM (fun t p => calm_lower) _ _) fun t => .pure _

/-! ## Steps of the walk -/

variable {d d' d₁ d₂ : Draft}

/-- How a block ends, if it has an end. -/
def Draft.term (d : Draft) (i : Nat) : Option Terminator := (d.view i).bind (·.2)

/-- The current block is the same, and every block ends as before. -/
structure Stays (d d' : Draft) : Prop where
  cur : d'.cur = d.cur
  size : d.size ≤ d'.size
  term : ∀ i < d.size, d'.term i = d.term i

/-- The current block is the same or a new one, and every other block ends as before. -/
structure Moves (d d' : Draft) : Prop where
  cur : d'.cur = d.cur ∨ d.size ≤ d'.cur
  lt : d'.cur < d'.size
  size : d.size ≤ d'.size
  term : ∀ i < d.size, i ≠ d.cur → d'.term i = d.term i

/-- From a current block of the function the draft stays. -/
def Aside (d d' : Draft) : Prop := d.cur < d.size → Stays d d'

/-- From a current block of the function the draft moves. -/
def Onward (d d' : Draft) : Prop := d.cur < d.size → Moves d d'

/-- Standing still twice is standing still. -/
theorem Stays.trans (h : Stays d d₁) (h' : Stays d₁ d₂) : Stays d d₂ where
  cur := h'.cur.trans h.cur
  size := Nat.le_trans h.size h'.size
  term i hi := (h'.term i (Nat.lt_of_lt_of_le hi h.size)).trans (h.term i hi)

/-- Going on twice ends the block where it began, the one in between, and no other. -/
theorem Moves.trans (h : Moves d d₁) (h' : Moves d₁ d₂) : Moves d d₂ where
  cur := by
    have hsize := h.size
    rcases h'.cur with hcur | hcur
    · rw [hcur]
      exact h.cur
    · exact .inr (Nat.le_trans hsize hcur)
  lt := h'.lt
  size := Nat.le_trans h.size h'.size
  term i hi hne := by
    refine (h'.term i (Nat.lt_of_lt_of_le hi h.size) ?_).trans (h.term i hi hne)
    rcases h.cur with hcur | hcur
    · rwa [hcur]
    · omega

/-- Standing still is going on without leaving the block. -/
theorem Stays.moves (h : Stays d d') (hlt : d.cur < d.size) : Moves d d' where
  cur := .inl h.cur
  lt := h.cur ▸ Nat.lt_of_lt_of_le hlt h.size
  size := h.size
  term i hi _ := h.term i hi

instance : IsPreorder Draft Aside where
  refl _ _ := ⟨rfl, Nat.le_refl _, fun _ _ => rfl⟩
  trans _ _ _ h h' hlt :=
    (h hlt).trans (h' ((h hlt).cur ▸ Nat.lt_of_lt_of_le hlt (h hlt).size))

instance : IsPreorder Draft Onward where
  refl _ hlt := ⟨.inl rfl, hlt, Nat.le_refl _, fun _ _ _ => rfl⟩
  trans _ _ _ h h' hlt := (h hlt).trans (h' (h hlt).lt)

/-- What stands still goes on, as far as ends are concerned. -/
theorem Along.onward {x : Walk α} (h : Along Aside x) : Along Onward x :=
  fun d a d' hrun hlt => (h d a d' hrun hlt).moves hlt

/-- Emitting code. -/
theorem stays_of_calm (h : Calm d.builder d'.builder) : Stays d d' := by
  have hterm : ∀ (d : Draft) i, d.term i =
      ((d.builder.function.blocks.map (fun blk => blk.terminator))[i]?).join := by
    intro d i
    rw [Draft.term, Draft.view, Array.getElem?_map]
    cases d.builder.function.blocks[i]? <;> rfl
  refine ⟨congrArg BlockId.index h.current, ?_, fun i _ => by rw [hterm, hterm, h.ends]⟩
  have hsize := congrArg Array.size h.ends
  rw [Array.size_map, Array.size_map] at hsize
  exact Nat.le_of_eq hsize.symm

/-- Code that the generator emits leaves the walk where it stands. -/
theorem Along.stays {x : Emit α} (h : Along Calm x) {a : α}
    (hrun : (liftM x : Walk α) d = .ok (a, d')) : Stays d d' := by
  rw [liftEmit_run] at hrun
  cases hx : x d.builder with
  | error e =>
    rw [hx] at hrun
    cases hrun
  | ok p =>
    rw [hx] at hrun
    cases hrun
    exact stays_of_calm (h _ _ _ hx)

/-- Emitting code stands still. -/
theorem Along.lift {x : Emit α} (h : Along Calm x) : Along Aside (liftM x : Walk α) :=
  fun _ _ _ hrun _ => h.stays hrun

/-- Noting an edge changes no block. -/
theorem aside_noteEdge {y : Slot} : Along Aside (Scope.noteEdge y t) := by
  intro d a d' hrun _
  cases hrun
  exact ⟨rfl, Nat.le_refl _, fun _ _ => rfl⟩

/-- Only the current block gets its end. -/
theorem term_finish_of_ne {term : Terminator} {i : Nat} (h : i ≠ d.cur) :
    (d.finish term).term i = d.term i := by
  rw [Draft.term, Draft.view_finish, if_neg h]
  rfl

/-- The current block has the end that it was given last. -/
theorem term_finish_cur {term : Terminator} (h : d.cur < d.size) :
    (d.finish term).term d.cur = some term := by
  obtain ⟨p, hp⟩ := Draft.exists_view h
  rw [Draft.term, Draft.view_finish, if_pos rfl, hp]
  rfl

/-- Ending the current block ends no other. -/
theorem onward_terminate {term : Terminator} :
    Along Onward (liftM (terminate term) : Walk Unit) := by
  intro d a d' hrun hlt
  rw [terminate_run] at hrun
  cases hrun
  exact ⟨.inl rfl, by simpa using hlt, Nat.le_of_eq (Draft.size_finish _).symm,
    fun i _ hne => term_finish_of_ne hne⟩

/-- The older blocks end as before when a block is declared. -/
theorem term_declare {name : String} {i : Nat} (h : i < d.size) :
    (d.declare name).term i = d.term i := by
  rw [Draft.term, Draft.view_declare, if_neg (Nat.ne_of_lt h)]
  rfl

/-- The older blocks end as before when an exit is opened. -/
theorem term_openExit {pc : ExitPc} {reason : ExitReason} {i : Nat} (h : i < d.size) :
    (d.openExit pc reason).term i = d.term i := by
  rw [Draft.term, Draft.view_openExit, if_neg (Nat.ne_of_lt h)]
  rfl

/-- A new block leaves the region, and the current block takes over again. -/
theorem aside_exitBlock {pc : ExitPc} {reason : ExitReason} :
    Along Aside (c.exitBlock t pc reason) := by
  have hcode : Along Calm (c.exitCode t pc) := by
    unfold Scope.exitCode
    split
    · exact .bind still_word.lift fun _ => .bind calm_writeBack fun _ => .pure _
    · exact .bind (.pure _) fun _ => .bind calm_writeBack fun _ => .pure _
  intro d k d' hrun hlt
  rw [exitBlock_run] at hrun
  obtain ⟨v, d₁, hd₁, hrun⟩ := run_bind_eq_ok hrun
  obtain ⟨_, d₂, hd₂, hrun⟩ := run_bind_eq_ok hrun
  obtain ⟨_, d₃, hd₃, hrun⟩ := run_bind_eq_ok hrun
  cases hrun
  -- The exit gets the block behind all there are, and the walk returns from it.
  have hopen : (d.openExit pc reason).cur < (d.openExit pc reason).size := by
    rw [Draft.size_openExit]
    exact Nat.lt_succ_self d.size
  have hmoves : Moves (d.openExit pc reason) d₂ :=
    trans_of Onward (hcode.lift.onward _ _ _ hd₁) (onward_terminate _ _ _ hd₂) hopen
  have hsize := hmoves.size
  rw [Draft.size_openExit] at hsize
  rw [switchTo_run (k := ⟨d.cur⟩) (show d.cur < d₂.size by omega)] at hd₃
  cases hd₃
  refine ⟨rfl, by rw [Draft.size_goTo]; omega, fun i hi => ?_⟩
  exact (hmoves.term i (by rw [Draft.size_openExit]; omega) (Nat.ne_of_lt hi)).trans (term_openExit hi)

/-- Looking something up changes nothing. -/
theorem aside_except {e : Except Breakdown α} : Along Aside (liftM e : Walk α) :=
  Along.lift (.except e)

/-- The block that an edge goes to may be a new exit, but the walk stays where it is. -/
theorem aside_edgeTo {target : Option Slot} {pc : UInt32} {reason : ExitReason} :
    Along Aside (c.edgeTo target t pc reason) := by
  unfold Scope.edgeTo
  split
  · exact .bind aside_noteEdge fun _ => aside_except
  · exact aside_exitBlock

/-- A jump ends the current block. -/
theorem onward_jumpTo {y : Slot} : Along Onward (c.jumpTo y t) :=
  .bind aside_noteEdge.onward fun _ => .bind aside_except.onward fun _ => onward_terminate

/-- A fork ends the current block after its exits are made. -/
theorem onward_forkTo {cond : Value} {takenSucc notTakenSucc : Option Slot}
    {taken notTaken : UInt32} {likely : Bool} :
    Along Onward (c.forkTo cond takenSucc notTakenSucc taken notTaken likely t) :=
  .bind aside_edgeTo.onward fun _ => .bind aside_edgeTo.onward fun _ => onward_terminate

/-- One comparison of the target of a register jump ends the current block, and a new one takes
over. -/
theorem onward_compare {y : Slot} {hit : Value} : Along Onward (do
    let next ← declareBlock "dispatch"
    Scope.noteEdge y t
    terminate (.branch hit (← c.blockOf y) next none)
    switchTo next : Walk Unit) := by
  intro d a d' hrun hlt
  rw [run_bind (declareBlock_run "dispatch"), run_bind (noteEdge_run y t)] at hrun
  obtain ⟨k, d₁, hd₁, hrun⟩ := run_bind_eq_ok hrun
  -- Side exits get blocks of their own, and then the walk goes on in the declared one.
  have hstays : Stays ((d.declare "dispatch").note y t) d₁ := aside_except _ _ _ hd₁ (by
    rw [Draft.size_note, Draft.size_declare]
    exact Nat.lt_succ_of_lt hlt)
  have hsize := hstays.size
  rw [Draft.size_note, Draft.size_declare] at hsize
  rw [run_bind (terminate_run _), switchTo_run (by rw [Draft.size_finish]; exact hsize)] at hrun
  cases hrun
  refine ⟨.inr (Nat.le_refl _), ?_, ?_, fun i hi hne => ?_⟩
  · rw [Draft.size_goTo, Draft.size_finish]
    exact hsize
  · rw [Draft.size_goTo, Draft.size_finish]
    omega
  · calc (d₁.finish _).term i = d₁.term i := term_finish_of_ne (hstays.cur ▸ hne)
      _ = (d.declare "dispatch").term i :=
        hstays.term i (by rw [Draft.size_note, Draft.size_declare]; omega)
      _ = d.term i := term_declare hi

/-- Comparing with one address after the other goes on through new blocks. -/
theorem onward_dispatch {target : Value} {slots : List (Slot × UInt32)} :
    Along Onward (c.dispatch target t slots) :=
  .forM (fun _ => .bind still_word.lift.lift.onward fun _ =>
    .bind still_icmp.lift.lift.onward fun _ => onward_compare) _

/-- Leaving a block ends that block alone. -/
theorem onward_leave {e : Ending} : Along Onward (c.leave b e t) := by
  unfold Scope.leave
  split
  · exact .bind aside_except.onward fun _ => .bind aside_edgeTo.onward fun _ => onward_terminate
  · refine .bind aside_except.onward fun x => .bind aside_except.onward fun y => ?_
    split
    · split
      · exact onward_jumpTo
      · exact onward_forkTo
    · exact onward_forkTo
  · exact .bind aside_except.onward fun _ => .bind onward_dispatch fun _ =>
      .bind aside_exitBlock.onward fun _ => onward_terminate

/-- Making phis ends no block. -/
theorem aside_addPhis {s : Slot} : Along Aside (c.addPhis s b t) := by
  have hnote : ∀ phis, Along Aside (modify fun d : Draft =>
      { d with phis := Ascending.put (·.1) (s, phis) d.phis } : Walk Unit) := by
    intro phis d a d' hrun _
    cases hrun
    exact ⟨rfl, Nat.le_refl _, fun _ _ => rfl⟩
  unfold Scope.addPhis
  refine .bind (.foldlM (fun p reg => ?_) _ _) fun p => .bind (hnote p.2) fun _ => .pure _
  exact .bind still_phi.lift.lift fun v => .bind calm_set.lift fun t => .pure _

/-- The synthetic entry ends its own block alone. -/
theorem onward_enterRegion : Along Onward (c.enterRegion t) := by
  refine .bind calm_loadLiveIn.lift.onward fun t => ?_
  split
  · exact .bind onward_jumpTo fun _ => .pure _
  · exact .bind aside_exitBlock.onward fun _ => .bind onward_terminate fun _ => .pure _

/-- The code of a block ends its own block, and those that compare a jump's target. -/
theorem onward_lowerBlock {s : Slot} : Along Onward (c.lowerBlock s b t) := by
  rw [lowerBlock_eq]
  refine .bind aside_except.onward fun k => .bind calm_setBlockComment.emit.lift.onward fun _ =>
    .bind aside_addPhis.onward fun t => .bind calm_bodyCode.lift.onward fun p => ?_
  split
  · exact .bind onward_leave fun _ => .pure _
  · exact .pure _

/-- A block that falls through ends itself alone. -/
theorem onward_lowerFallthrough : Along Onward (c.lowerFallthrough b t) := by
  rw [lowerFallthrough_eq]
  split
  · exact .pure _
  · exact onward_leave

end HotRegion.Lowering
