import HotRegion.Proofs.Ssa.Valid
import HotRegion.Ssa.Builder

/-!
# Built functions

The calls of a builder and the functions that sequences of calls make. A call is refused when it
looks up a block or a value that the function does not have. What it only writes down may be
anything: operands, targets and predecessors that the function does not have, or not yet.

## Key results

- `Call.edit`, `Edit.adds`: the few things that a call can do, and which instructions it adds
- `invariant_of_calls`: what a new function has and every call keeps, every built function has
- `once_of_calls`: every value that has a type in a built function is defined once
-/

namespace HotRegion.Ssa

open Machine (Loc Width)

namespace Builder

/-- A call of a builder. -/
inductive Call where
  | declareBlock (name : String)
  | startBlock (block : BlockId)
  | setBlockComment (block : BlockId) (comment : Option String)
  | comment (text : String)
  | const (ty : Ty) (bits : UInt64)
  | binary (op : BinOp) (lhs rhs : Value)
  | unary (op : UnOp) (src : Value)
  | icmp (cond : IntCC) (lhs rhs : Value)
  | fcmp (cond : FloatCC) (lhs rhs : Value)
  | select (cond ifTrue ifFalse : Value)
  | cast (op : CastOp) (src : Value) (target : Ty)
  | load (width : Width) (signed : Bool) (addr : Value) (ty : Ty)
  | store (width : Width) (addr value : Value)
  | readGuest (loc : Loc)
  | writeGuest (loc : Loc) (value : Value)
  | phi (ty : Ty)
  | addIncoming (phi : Value) (pred : BlockId) (value : Value)
  | terminate (t : Terminator)

/-- The builder after a call. -/
def Call.run (b : Builder) : Call → Except Misuse Builder
  | declareBlock name => .ok (Build.declareBlock name b).2
  | startBlock block => (·.2) <$> Build.switchTo block b
  | setBlockComment block text => (·.2) <$> Build.setBlockComment block text b
  | comment text => .ok (Build.comment text b).2
  | const ty bits => .ok (Build.const ty bits b).2
  | binary op lhs rhs => (·.2) <$> Build.binary op lhs rhs b
  | unary op src => (·.2) <$> Build.unary op src b
  | icmp cond lhs rhs => .ok (Build.icmp cond lhs rhs b).2
  | fcmp cond lhs rhs => .ok (Build.fcmp cond lhs rhs b).2
  | select cond ifTrue ifFalse => (·.2) <$> Build.select cond ifTrue ifFalse b
  | cast op src target => .ok (Build.cast op src target b).2
  | load width signed addr ty => .ok (Build.load width signed addr ty b).2
  | store width addr value => .ok (Build.store width addr value b).2
  | readGuest loc => .ok (Build.readGuest loc b).2
  | writeGuest loc value => .ok (Build.writeGuest loc value b).2
  | phi ty => .ok (Build.phi ty b).2
  | addIncoming dst pred value => (·.2) <$> Build.addIncoming dst pred value b
  | terminate t => .ok (Build.terminate t b).2

/-- The builder of a new function after a sequence of calls. -/
def ofCalls (name : String) (calls : List Call) : Except Misuse Builder :=
  calls.foldlM Call.run (.new name)

/-- The blocks that a call lets control go to. -/
def Call.targets : Call → List BlockId
  | terminate t => t.successors
  | _ => []

/-- What a call can do that lets control go to these targets. The calls that define a value with an
instruction other than a phi differ in the type and the instruction alone. -/
inductive Edit (b : Builder) (targets : List BlockId) : Builder → Prop where
  | declare (name : String) : Edit b targets (Build.declareBlock name b).2
  | start (block : BlockId) (h : block.index < b.function.blocks.size) :
    Edit b targets { b with current := block }
  | label (block : BlockId) (text : Option String) :
    Edit b targets (Build.modifyBlock block (fun blk => { blk with comment := text }) b).2
  | comment (text : String) : Edit b targets (Build.comment text b).2
  | define (ty : Ty) (inst : Value → Inst) (hdst : ∀ v, (inst v).dst? = some v)
    (hphi : ∀ v, (inst v).isPhi = false)
    (hbits : ∀ v bits, inst v = .const v bits → bits &&& ty.mask = bits) :
    Edit b targets (Build.define ty inst b).2
  | effect (inst : Inst) (hdst : inst.dst? = none) (hphi : inst.isPhi = false) :
    Edit b targets (Build.push inst b).2
  | phi (ty : Ty) : Edit b targets (Build.phi ty b).2
  | input (phi : Value) (pred : BlockId) (value : Value) {site : BlockId × Nat}
    (hsite : b.phiSites[phi.index]? = some site) :
    Edit b targets (Build.modifyBlock site.1 (Block.extendPhi site.2 pred value) b).2
  | terminate (t : Terminator) (ht : t.successors = targets) : Edit b targets (Build.terminate t b).2

variable {b b' : Builder} {targets : List BlockId}

/-! ### Steps that may fail -/

/-- The builder goes on in a block of the function, and breaks down for any other. -/
theorem switchTo_eq_ok {block : BlockId} {r : Unit × Builder} :
    Build.switchTo block b = .ok r ↔
      block.index < b.function.blocks.size ∧ ((), { b with current := block }) = r := by
  unfold Build.switchTo
  split
  · simp [*]
  · simp [*]

/-- A block of the function gets the comment, and the builder breaks down for any other. -/
theorem setBlockComment_eq_ok {block : BlockId} {text : Option String} {r : Unit × Builder} :
    Build.setBlockComment block text b = .ok r ↔ block.index < b.function.blocks.size ∧
      Build.modifyBlock block (fun blk => { blk with comment := text }) b = r := by
  unfold Build.setBlockComment
  split
  · simp [*]
  · simp [*]

/-- A new value can have the type of any value that has one. -/
theorem defineLike_eq_ok {v : Value} {inst : Value → Inst} {r : Value × Builder} :
    Build.defineLike v inst b = .ok r ↔
      ∃ ty, b.function.types[v.index]? = some ty ∧ Build.define ty inst b = r := by
  change (Build.ty v b >>= fun p => Except.ok (Build.define p.1 inst p.2)) = .ok r ↔ _
  unfold Build.ty
  cases b.function.types[v.index]? with
  | none => exact ⟨nofun, nofun⟩
  | some ty =>
    constructor
    · intro h
      exact ⟨ty, rfl, Except.ok.inj h⟩
    · rintro ⟨_, ⟨⟩, rfl⟩
      rfl

/-- An input goes to the phi that defines the value. -/
theorem addIncoming_eq_ok {phi value : Value} {pred : BlockId} {r : Unit × Builder} :
    Build.addIncoming phi pred value b = .ok r ↔ ∃ site, b.phiSites[phi.index]? = some site ∧
      Build.modifyBlock site.1 (Block.extendPhi site.2 pred value) b = r := by
  unfold Build.addIncoming
  cases b.phiSites[phi.index]? with
  | none => exact ⟨nofun, nofun⟩
  | some site =>
    constructor
    · intro h
      exact ⟨site, rfl, Except.ok.inj h⟩
    · rintro ⟨_, ⟨⟩, rfl⟩
      rfl

/-! ### Edits -/

/-- A call changes the builder if it succeeds. -/
private theorem map_snd_eq_ok {α : Type} {x : Except Misuse (α × Builder)} :
    (·.2) <$> x = .ok b ↔ ∃ a, x = .ok (a, b) := by
  cases x with
  | error e => exact ⟨nofun, nofun⟩
  | ok p =>
    constructor
    · rintro ⟨⟩
      exact ⟨p.1, rfl⟩
    · rintro ⟨_, ⟨⟩⟩
      rfl

/-- Every call is one of the edits. -/
theorem Call.edit {call : Call} (hrun : call.run b = .ok b') : Edit b call.targets b' := by
  cases call with
  | startBlock block =>
    obtain ⟨_, hrun⟩ := map_snd_eq_ok.1 hrun
    obtain ⟨hlt, heq⟩ := switchTo_eq_ok.1 hrun
    cases heq
    exact .start block hlt
  | declareBlock name =>
    cases hrun
    exact .declare name
  | setBlockComment block text =>
    obtain ⟨_, hrun⟩ := map_snd_eq_ok.1 hrun
    obtain ⟨_, heq⟩ := setBlockComment_eq_ok.1 hrun
    cases heq
    exact .label block text
  | comment text =>
    cases hrun
    exact .comment text
  | const ty bits =>
    cases hrun
    refine .define ty (.const · (bits &&& ty.mask)) (fun _ => rfl) (fun _ => rfl) fun v bits' h => ?_
    cases h
    rw [UInt64.and_assoc, UInt64.and_self]
  | binary op lhs rhs =>
    obtain ⟨_, hrun⟩ := map_snd_eq_ok.1 hrun
    obtain ⟨ty, _, heq⟩ := defineLike_eq_ok.1 hrun
    cases heq
    exact .define ty (.binary · op lhs rhs) (fun _ => rfl) (fun _ => rfl) nofun
  | unary op src =>
    obtain ⟨_, hrun⟩ := map_snd_eq_ok.1 hrun
    obtain ⟨ty, _, heq⟩ := defineLike_eq_ok.1 hrun
    cases heq
    exact .define ty (.unary · op src) (fun _ => rfl) (fun _ => rfl) nofun
  | icmp cond lhs rhs =>
    cases hrun
    exact .define .i1 (.icmp · cond lhs rhs) (fun _ => rfl) (fun _ => rfl) nofun
  | fcmp cond lhs rhs =>
    cases hrun
    exact .define .i1 (.fcmp · cond lhs rhs) (fun _ => rfl) (fun _ => rfl) nofun
  | select cond ifTrue ifFalse =>
    obtain ⟨_, hrun⟩ := map_snd_eq_ok.1 hrun
    obtain ⟨ty, _, heq⟩ := defineLike_eq_ok.1 hrun
    cases heq
    exact .define ty (.select · cond ifTrue ifFalse) (fun _ => rfl) (fun _ => rfl) nofun
  | cast op src target =>
    cases hrun
    exact .define target (.cast · op src) (fun _ => rfl) (fun _ => rfl) nofun
  | load width signed addr ty =>
    cases hrun
    exact .define ty (.load · width signed addr) (fun _ => rfl) (fun _ => rfl) nofun
  | store width addr value =>
    cases hrun
    exact .effect (.store width addr value) rfl rfl
  | readGuest loc =>
    cases hrun
    exact .define (.ofLoc loc) (.readGuest · loc) (fun _ => rfl) (fun _ => rfl) nofun
  | writeGuest loc value =>
    cases hrun
    exact .effect (.writeGuest loc value) rfl rfl
  | phi ty =>
    cases hrun
    exact .phi ty
  | addIncoming dst pred value =>
    obtain ⟨_, hrun⟩ := map_snd_eq_ok.1 hrun
    obtain ⟨site, hsite, heq⟩ := addIncoming_eq_ok.1 hrun
    cases heq
    exact .input dst pred value hsite
  | terminate t =>
    cases hrun
    exact .terminate t rfl

/-- A call takes no block away. -/
theorem Edit.size_le (hedit : Edit b targets b') :
    b.function.blocks.size ≤ b'.function.blocks.size := by
  cases hedit with
  | start => exact Nat.le_refl _
  | declare => exact Nat.le_trans (Nat.le_succ _) (Nat.le_of_eq (Array.size_push _).symm)
  | _ => exact Nat.le_of_eq Array.size_modify.symm

/-- Only the start of another block changes the current one. -/
theorem Edit.current (hedit : Edit b targets b') :
    b'.current = b.current ∨ b'.current.index < b.function.blocks.size := by
  cases hedit with
  | start block h => exact .inr h
  | _ => exact .inl rfl

end Builder

/-! ## Instructions -/

/-- The instruction without the inputs of a phi. -/
def Inst.bare : Inst → Inst
  | .phi dst _ => .phi dst []
  | inst => inst

@[simp] theorem Inst.bare_dst? (inst : Inst) : inst.bare.dst? = inst.dst? := by cases inst <;> rfl

/-- Inputs of phis define no values. -/
theorem dsts_map_bare (insts : List Inst) : dsts (insts.map Inst.bare) = dsts insts := by
  rw [dsts, List.filterMap_map]
  exact congrArg (List.filterMap · insts) (funext Inst.bare_dst?)

/-- The constants of code are those of the code without inputs. -/
theorem const_mem_map_bare {insts : List Inst} {v : Value} {bits : UInt64} :
    .const v bits ∈ insts.map Inst.bare ↔ .const v bits ∈ insts := by
  rw [List.mem_map]
  constructor
  · rintro ⟨inst, hmem, heq⟩
    cases inst with
    | const => exact heq ▸ hmem
    | _ => cases heq
  · exact fun h => ⟨_, h, rfl⟩

/-- An input is not seen in the code without inputs. -/
theorem Block.extendPhi_bare (blk : Block) (i : Nat) (pred : BlockId) (value : Value) :
    (blk.extendPhi i pred value).insts.toList.map Inst.bare = blk.insts.toList.map Inst.bare := by
  apply List.ext_getElem?
  intro j
  simp only [extendPhi, Array.toList_modify, List.getElem?_map, List.getElem?_modify]
  cases blk.insts.toList[j]? with
  | none => rfl
  | some inst => cases inst <;> simp only [Option.map_some] <;> split <;> rfl

namespace Function

variable {f f' : Function} {k : Nat} {blk : Block} {g : Block → Block} {inst : Inst}
  {front back : List Inst}

/-- A change of one block leaves the instructions before and after the block. -/
theorem allInsts_modify (hk : f.blocks[k]? = some blk) (hf : f'.blocks = f.blocks.modify k g) :
    ∃ before after, f.allInsts = before ++ blk.insts.toList ++ after ∧
      f'.allInsts = before ++ (g blk).insts.toList ++ after := by
  rw [← Array.getElem?_toList] at hk
  obtain ⟨hlt, hget⟩ := List.getElem?_eq_some_iff.1 hk
  refine ⟨(f.blocks.toList.take k).flatMap (·.insts.toList),
    (f.blocks.toList.drop (k + 1)).flatMap (·.insts.toList), ?_, ?_⟩
  · have hsplit : f.blocks.toList = f.blocks.toList.take k ++ blk :: f.blocks.toList.drop (k + 1) := by
      rw [← hget, List.getElem_cons_drop, List.take_append_drop]
    exact (congrArg (List.flatMap _) hsplit).trans (by
      rw [List.flatMap_append, List.flatMap_cons, List.append_assoc])
  · rw [allInsts, hf, Array.toList_modify, List.modify_eq_take_cons_drop hlt, List.flatMap_append,
      List.flatMap_cons, hget, List.append_assoc]

/-- A block that is not there cannot be changed. -/
theorem blocks_modify_of_none (hk : f.blocks[k]? = none) : f.blocks.modify k g = f.blocks := by
  apply Array.ext_getElem?
  intro i
  rw [Array.getElem?_modify]
  split
  · next heq =>
    subst heq
    rw [hk]
    rfl
  · rfl

/-- An instruction that is put into a block is put into the function. -/
theorem allInsts_insert (hk : f.blocks[k]? = some blk) (hf : f'.blocks = f.blocks.modify k g)
    (hold : blk.insts.toList = front ++ back) (hnew : (g blk).insts.toList = front ++ inst :: back) :
    f'.allInsts.Perm (inst :: f.allInsts) := by
  obtain ⟨before, after, hall, hall'⟩ := allInsts_modify hk hf
  rw [hall, hall', hold, hnew]
  simp only [List.append_assoc, List.cons_append]
  rw [← List.append_assoc, ← List.append_assoc before]
  exact List.perm_middle

/-- A change of a block that leaves its instructions but for the inputs of phis. -/
theorem allInsts_bare (hf : f'.blocks = f.blocks.modify k g)
    (hg : ∀ blk, (g blk).insts.toList.map Inst.bare = blk.insts.toList.map Inst.bare) :
    f'.allInsts.map Inst.bare = f.allInsts.map Inst.bare := by
  cases hk : f.blocks[k]? with
  | none => rw [allInsts, allInsts, hf, blocks_modify_of_none hk]
  | some blk =>
    obtain ⟨before, after, hall, hall'⟩ := allInsts_modify hk hf
    simp only [hall, hall', List.map_append, hg]

end Function

namespace Builder

variable {b b' : Builder} {targets : List BlockId}

/-- What a call does to the instructions of a function, the inputs of phis aside: it adds none, or
one that defines nothing, or one that defines the value it makes. -/
inductive Adds (b b' : Builder) : Prop where
  | nothing (htypes : b'.function.types = b.function.types)
    (hinsts : b'.function.allInsts.map Inst.bare = b.function.allInsts.map Inst.bare)
  | effect (inst : Inst) (htypes : b'.function.types = b.function.types) (hdst : inst.dst? = none)
    (hinsts : b'.function.allInsts.Perm (inst :: b.function.allInsts))
  | value (ty : Ty) (inst : Inst) (htypes : b'.function.types = b.function.types.push ty)
    (hdst : inst.dst? = some ⟨b.function.types.size⟩)
    (hbits : ∀ v bits, inst = .const v bits → bits &&& ty.mask = bits)
    (hinsts : b'.function.allInsts.Perm (inst :: b.function.allInsts))

/-- An edit takes no instruction away. -/
theorem Edit.adds (hedit : Edit b targets b') (hcur : b.current.index < b.function.blocks.size) :
    Adds b b' := by
  have hblk : b.function.blocks[b.current.index]? = some b.function.blocks[b.current.index] :=
    Array.getElem?_eq_getElem hcur
  -- An instruction at the end of the current block.
  have hpush : ∀ {f' : Function} (inst : Inst), f'.blocks = b.function.blocks.modify b.current.index
      (fun blk => { blk with insts := blk.insts.push inst }) →
      f'.allInsts.Perm (inst :: b.function.allInsts) := fun inst hf =>
    Function.allInsts_insert hblk hf (List.append_nil _).symm Array.toList_push
  -- A change of a block that leaves its instructions.
  have hsame : ∀ (k : BlockId) (g : Block → Block), (∀ blk, (g blk).insts = blk.insts) →
      ((Build.modifyBlock k g b).2).function.allInsts.map Inst.bare =
        b.function.allInsts.map Inst.bare := fun k g hg =>
    Function.allInsts_bare rfl fun blk => by rw [hg]
  cases hedit with
  | declare name =>
    refine .nothing rfl ?_
    change ((b.function.blocks.push _).toList.flatMap _).map _ = _
    rw [Array.toList_push, List.flatMap_append, List.flatMap_singleton]
    simp [Function.allInsts]
  | start => exact .nothing rfl rfl
  | label block text => exact .nothing rfl (hsame block _ fun _ => rfl)
  | comment text => exact .nothing rfl (hsame b.current _ fun _ => rfl)
  | terminate t => exact .nothing rfl (hsame b.current _ fun _ => rfl)
  | define ty inst hdst hphi hbits =>
    refine .value ty (inst ⟨b.function.types.size⟩) rfl (hdst _) (fun v bits heq => ?_) (hpush _ rfl)
    have hv := hdst ⟨b.function.types.size⟩
    rw [heq] at hv
    cases hv
    exact hbits _ bits heq
  | effect inst hdst => exact .effect inst rfl hdst (hpush inst rfl)
  | phi ty =>
    exact .value ty (.phi ⟨b.function.types.size⟩ []) rfl rfl (fun v bits heq => by cases heq)
      (Function.allInsts_insert hblk rfl (List.take_append_drop _ _).symm rfl)
  | input => exact .nothing rfl (Function.allInsts_bare rfl fun blk => blk.extendPhi_bare _ _ _)

/-! ## Definitions -/

/-- A function defines what the instructions of its blocks define. -/
theorem defines_iff {f : Function} {v : Value} :
    f.Defines v ↔ ∃ (i : Nat) (blk : Block), f.blocks[i]? = some blk ∧ v ∈ dsts blk.insts.toList := by
  simp only [Function.Defines, mem_dsts, Function.mem_allInsts]
  constructor
  · rintro ⟨inst, ⟨i, blk, hb, hinst⟩, hd⟩
    exact ⟨i, blk, hb, inst, hinst, hd⟩
  · rintro ⟨i, blk, hb, inst, hinst, hd⟩
    exact ⟨inst, ⟨i, blk, hb, hinst⟩, hd⟩

/-- Every value that an instruction of the function defines has a type. -/
def Bounded (b : Builder) : Prop := ∀ v, b.function.Defines v → v.index < b.function.types.size

/-- Instructions go into a block of the function, and every value that has a type is defined by one
of them. -/
structure Once (b : Builder) : Prop where
  current : b.current.index < b.function.blocks.size
  once : (dsts b.function.allInsts).Perm ((List.range b.function.types.size).map Value.mk)

/-- If every value is defined once, all values are below the bound. -/
theorem Once.bounded (h : Once b) : Bounded b := by
  intro v hv
  obtain ⟨i, hi, rfl⟩ := List.mem_map.1 (h.once.mem_iff.1 hv)
  exact List.mem_range.1 hi

/-- The empty function defines nothing twice. -/
theorem once_new (name : String) : (Builder.new name).Once := ⟨Nat.one_pos, .nil⟩

/-- A call keeps every value defined once. -/
theorem Once.edit (h : b.Once) (hedit : Edit b targets b') : b'.Once := by
  refine ⟨?_, ?_⟩
  · rcases hedit.current with heq | hlt
    · rw [heq]
      exact Nat.lt_of_lt_of_le h.current hedit.size_le
    · exact Nat.lt_of_lt_of_le hlt hedit.size_le
  · cases hedit.adds h.current with
    | nothing htypes hinsts =>
      rw [← dsts_map_bare, hinsts, dsts_map_bare, htypes]
      exact h.once
    | effect inst htypes hdst hinsts =>
      refine (hinsts.filterMap _).trans ?_
      rw [List.filterMap_cons_none hdst, htypes]
      exact h.once
    | value ty inst htypes hdst hbits hinsts =>
      refine (hinsts.filterMap _).trans ?_
      rw [List.filterMap_cons_some hdst, htypes, Array.size_push, List.range_succ, List.map_append]
      exact (h.once.cons _).trans (List.perm_append_singleton _ _).symm

/-! ## Sequences of calls -/

/-- What every one of some calls keeps they keep together. -/
theorem invariant_of_run {P : Builder → Prop} {calls : List Call}
    (hedit : ∀ call ∈ calls, ∀ b b', P b → Edit b call.targets b' → P b') (hstart : P b)
    (h : calls.foldlM Call.run b = .ok b') : P b' := by
  induction calls generalizing b with
  | nil =>
    cases h
    exact hstart
  | cons call calls ih =>
    rw [List.foldlM_cons, bind_eq_ok] at h
    obtain ⟨b₁, h₁, h⟩ := h
    obtain ⟨hcall, hedit⟩ := List.forall_mem_cons.1 hedit
    exact ih hedit (hcall b b₁ hstart (Call.edit h₁)) h

/-- What holds of a new function and every call keeps holds of every built function. -/
theorem invariant_of_calls {P : Builder → Prop} (hnew : ∀ name, P (.new name))
    (hedit : ∀ b b' targets, P b → Edit b targets b' → P b') {name : String} {calls : List Call}
    (h : ofCalls name calls = .ok b) : P b :=
  invariant_of_run (fun call _ b b' => hedit b b' call.targets) (hnew name) h

/-- What calls of the builder make defines no value twice. -/
theorem once_of_calls {name : String} {calls : List Call} (h : ofCalls name calls = .ok b) : b.Once :=
  invariant_of_calls once_new (fun _ _ _ hb hedit => hb.edit hedit) h

/-- Every value that a built function defines has a type. -/
theorem bounded_of_calls {name : String} {calls : List Call} (h : ofCalls name calls = .ok b) :
    b.Bounded := (once_of_calls h).bounded

/-- A built function has an entry block. -/
theorem entry_of_calls {name : String} {calls : List Call} (h : ofCalls name calls = .ok b) :
    Function.entry.index < b.function.blocks.size :=
  invariant_of_calls (P := fun b => Function.entry.index < b.function.blocks.size)
    (fun _ => Nat.one_pos) (fun _ _ _ hb hedit => Nat.lt_of_lt_of_le hb hedit.size_le) h

end Builder

end HotRegion.Ssa
