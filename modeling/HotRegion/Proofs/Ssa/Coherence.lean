import HotRegion.Proofs.Ssa.Built

/-!
# Coherence of a builder

A builder puts phis into the middle of blocks, notes where they are to extend them later, and keeps
comments by position. Whatever the order of its calls, every value has one definition, the phis stand
before all other instructions, each phi is where the builder noted it, and a comment stays before the
instruction that followed it.

## Key results

- `Block.Quiet.extends`, `Block.extends_withPhi`: what a change of a block keeps
- `Builder.Coherent.edit`: a call keeps a builder coherent
- `representation_of_calls`: what this comes to for a built function
-/

namespace HotRegion.Ssa

variable {inst : Inst} {insts front back : List Inst} {blk blk' blk₁ blk₂ : Block} {v : Value}
  {targets : List BlockId}

/-! ## Blocks -/

@[simp] theorem Inst.bare_isPhi (inst : Inst) : inst.bare.isPhi = inst.isPhi := by cases inst <;> rfl

/-- Instructions without inputs are bare already. -/
theorem map_bare_of_body (h : ∀ inst ∈ insts, inst.isPhi = false) : insts.map Inst.bare = insts := by
  refine (List.map_congr_left fun inst hinst => ?_).trans (List.map_id insts)
  cases inst with
  | phi => cases h _ hinst
  | _ => rfl

namespace Block

/-- The phis of a block without their inputs are the leading phis of its bare code. -/
theorem map_bare_phis (blk : Block) :
    blk.phis.map Inst.bare = (blk.insts.toList.map Inst.bare).takeWhile Inst.isPhi := by
  rw [List.takeWhile_map]
  exact congrArg (fun p => (blk.insts.toList.takeWhile p).map Inst.bare)
    (funext fun inst => inst.bare_isPhi.symm)

/-- The body of a block is the rest of its bare code. -/
theorem map_bare_body (blk : Block) :
    blk.body.map Inst.bare = (blk.insts.toList.map Inst.bare).dropWhile Inst.isPhi := by
  rw [List.dropWhile_map]
  exact congrArg (fun p => (blk.insts.toList.dropWhile p).map Inst.bare)
    (funext fun inst => inst.bare_isPhi.symm)

/-- Leading phis and other instructions after them are the parts of a block. -/
theorem phis_body (hinsts : blk.insts.toList = front ++ back)
    (hfront : ∀ inst ∈ front, inst.isPhi = true) (hback : ∀ inst ∈ back, inst.isPhi = false) :
    blk.phis = front ∧ blk.body = back := by
  have htake : back.takeWhile Inst.isPhi = [] := by
    cases back with
    | nil => rfl
    | cons inst back => simp [hback inst List.mem_cons_self]
  have hdrop : back.dropWhile Inst.isPhi = back := by
    cases back with
    | nil => rfl
    | cons inst back => simp [hback inst List.mem_cons_self]
  rw [phis, body, hinsts, List.takeWhile_append_of_pos hfront, List.dropWhile_append_of_pos hfront,
    htake, hdrop, List.append_nil]
  exact ⟨rfl, rfl⟩

/-- The instructions of a block are its phis and its body. -/
theorem size_insts (blk : Block) : blk.insts.size = blk.phis.length + blk.body.length := by
  rw [← List.length_append, ← insts_eq, Array.length_toList]

/-- The comments with the number of instructions after the phis that stand before each. -/
def remarks (blk : Block) : List (Nat × String) :=
  blk.comments.toList.map fun c => (c.1 - blk.phis.length, c.2)

/-- All phis stand before the other instructions, and the comments are in order after the phis. -/
structure Ordered (blk : Block) : Prop where
  body : ∀ inst ∈ blk.body, inst.isPhi = false
  ascending : blk.comments.toList.Pairwise fun c d => c.1 ≤ d.1
  range : ∀ c ∈ blk.comments.toList, blk.phis.length ≤ c.1 ∧ c.1 ≤ blk.insts.size

/-- The second block is the first with phis added after its phis, inputs added to its phis, and
instructions and comments added at its end. -/
structure Extends (blk blk' : Block) : Prop where
  phis : blk.phis.map Inst.bare <+: blk'.phis.map Inst.bare
  body : blk.body <+: blk'.body
  remarks : blk.remarks <+: blk'.remarks

/-- A block extends itself. -/
theorem Extends.refl (blk : Block) : blk.Extends blk :=
  ⟨List.prefix_rfl, List.prefix_rfl, List.prefix_rfl⟩

/-- Extending twice is extending. -/
theorem Extends.trans (h : blk.Extends blk₁) (h' : blk₁.Extends blk₂) : blk.Extends blk₂ :=
  ⟨h.phis.trans h'.phis, h.body.trans h'.body, h.remarks.trans h'.remarks⟩

/-- The block with a phi after its phis. -/
def withPhi (v : Value) (blk : Block) : Block := blk.insertAt blk.phis.length (.phi v [])

/-- A change of a block that adds no phi and lets control go to these targets if it ends the block. -/
inductive Quiet (targets : List BlockId) (blk : Block) : Block → Prop where
  | same : Quiet targets blk blk
  | label (text : Option String) : Quiet targets blk { blk with comment := text }
  | remark (text : String) :
    Quiet targets blk { blk with comments := blk.comments.push (blk.insts.size, text) }
  | push (inst : Inst) (hphi : inst.isPhi = false) :
    Quiet targets blk { blk with insts := blk.insts.push inst }
  | input (i : Nat) (pred : BlockId) (value : Value) : Quiet targets blk (blk.extendPhi i pred value)
  | finish (t : Terminator) (ht : t.successors = targets) :
    Quiet targets blk { blk with terminator := some t }

/-- An input goes to a phi or nowhere. -/
theorem extendPhi_parts (hbody : ∀ inst ∈ blk.body, inst.isPhi = false) (i : Nat) (pred : BlockId)
    (value : Value) :
    (blk.extendPhi i pred value).phis.map Inst.bare = blk.phis.map Inst.bare ∧
      (blk.extendPhi i pred value).body = blk.body := by
  have hbare := blk.extendPhi_bare i pred value
  have hrest : (blk.extendPhi i pred value).body.map Inst.bare = blk.body := by
    rw [map_bare_body, hbare, ← map_bare_body, map_bare_of_body hbody]
  refine ⟨by rw [map_bare_phis, hbare, ← map_bare_phis], ?_⟩
  rw [← hrest]
  refine (map_bare_of_body fun inst hinst => ?_).symm
  rw [← inst.bare_isPhi]
  exact hbody _ (hrest ▸ List.mem_map_of_mem hinst)

/-- A change that adds no phi leaves the phis but for their inputs, and adds at most one instruction
after the others. -/
theorem Quiet.parts (h : Quiet targets blk blk') (hbody : ∀ inst ∈ blk.body, inst.isPhi = false) :
    blk'.phis.map Inst.bare = blk.phis.map Inst.bare ∧
      ∃ new, blk'.body = blk.body ++ new ∧ ∀ inst ∈ new, inst.isPhi = false := by
  cases h with
  | push inst hphi =>
    have hinsts : (blk.insts.push inst).toList = blk.phis ++ (blk.body ++ [inst]) := by
      rw [Array.toList_push, insts_eq, List.append_assoc]
    have hparts : Block.phis { blk with insts := blk.insts.push inst } = blk.phis ∧
        Block.body { blk with insts := blk.insts.push inst } = blk.body ++ [inst] :=
      phis_body hinsts (fun _ => phi_of_mem)
        (List.forall_mem_append.2 ⟨hbody, List.forall_mem_singleton.2 hphi⟩)
    obtain ⟨hphis, hrest⟩ := hparts
    exact ⟨congrArg _ hphis, [inst], hrest, List.forall_mem_singleton.2 hphi⟩
  | input i pred value =>
    obtain ⟨hphis, hrest⟩ := extendPhi_parts hbody i pred value
    exact ⟨hphis, [], by rw [hrest, List.append_nil], fun _ h => absurd h List.not_mem_nil⟩
  | _ => exact ⟨rfl, [], (List.append_nil _).symm, fun _ h => absurd h List.not_mem_nil⟩

/-- The comments keep their order and their distance to the phis. -/
theorem Quiet.ordered (h : Quiet targets blk blk') (hord : blk.Ordered) : blk'.Ordered := by
  obtain ⟨hphis, new, hbody, hnew⟩ := h.parts hord.body
  -- The phis stay, and what is new comes after the rest of the block.
  have hlen : blk'.phis.length = blk.phis.length := by
    simpa using congrArg List.length hphis
  have hsize : blk.insts.size ≤ blk'.insts.size := by
    rw [size_insts, size_insts, hlen, hbody, List.length_append]
    omega
  have hcomments : blk'.comments = blk.comments ∨
      ∃ text, blk'.comments = blk.comments.push (blk.insts.size, text) := by
    cases h with
    | remark text => exact .inr ⟨text, rfl⟩
    | _ => exact .inl rfl
  refine ⟨hbody ▸ List.forall_mem_append.2 ⟨hord.body, hnew⟩, ?_, fun c hc => ?_⟩
  · rcases hcomments with heq | ⟨text, heq⟩
    · rw [heq]
      exact hord.ascending
    · rw [heq, Array.toList_push]
      refine List.pairwise_append.2 ⟨hord.ascending, List.pairwise_singleton _ _, fun c hc d hd => ?_⟩
      rw [List.mem_singleton.1 hd]
      exact (hord.range c hc).2
  · rw [hlen]
    have hold : c ∈ blk.comments.toList → blk.phis.length ≤ c.1 ∧ c.1 ≤ blk'.insts.size := fun hc =>
      ⟨(hord.range c hc).1, Nat.le_trans (hord.range c hc).2 hsize⟩
    rcases hcomments with heq | ⟨text, heq⟩
    · exact hold (heq ▸ hc)
    · rw [heq, Array.toList_push] at hc
      rcases List.mem_append.1 hc with hc | hc
      · exact hold hc
      · rw [List.mem_singleton.1 hc]
        exact ⟨by rw [size_insts]; exact Nat.le_add_right _ _, hsize⟩

/-- A quiet change extends a block whose phis come first. -/
theorem Quiet.extends (h : Quiet targets blk blk') (hord : blk.Ordered) : blk.Extends blk' := by
  obtain ⟨hphis, new, hbody, -⟩ := h.parts hord.body
  have hlen : blk'.phis.length = blk.phis.length := by
    simpa using congrArg List.length hphis
  refine ⟨hphis ▸ List.prefix_rfl, hbody ▸ List.prefix_append _ _, ?_⟩
  rw [remarks, remarks, hlen]
  refine List.IsPrefix.map _ ?_
  cases h with
  | remark text =>
    rw [Array.toList_push]
    exact List.prefix_append _ _
  | _ => exact List.prefix_rfl

/-- A phi goes after the other phis. -/
theorem withPhi_parts (hbody : ∀ inst ∈ blk.body, inst.isPhi = false) :
    (blk.withPhi v).phis = blk.phis ++ [.phi v []] ∧ (blk.withPhi v).body = blk.body := by
  have hinsts : (blk.withPhi v).insts.toList = blk.phis ++ [.phi v []] ++ blk.body := by
    change blk.insts.toList.take blk.phis.length ++
      .phi v [] :: blk.insts.toList.drop blk.phis.length = _
    rw [insts_eq, List.take_left, List.drop_left, List.append_assoc]
    rfl
  exact phis_body hinsts
    (List.forall_mem_append.2 ⟨fun _ => phi_of_mem, List.forall_mem_singleton.2 rfl⟩) hbody

/-- All comments move when a phi is added, as they stand after the phis. -/
theorem withPhi_comments (hord : blk.Ordered) :
    (blk.withPhi v).comments.toList = blk.comments.toList.map fun c => (c.1 + 1, c.2) := by
  change (blk.comments.map _).toList = _
  rw [Array.toList_map]
  exact List.map_congr_left fun (j, text) hc => congrArg (·, text) (if_pos (hord.range _ hc).1)

/-- A new phi goes among the phis. -/
theorem Ordered.withPhi (hord : blk.Ordered) : (blk.withPhi v).Ordered := by
  obtain ⟨hphis, hbody⟩ := withPhi_parts (v := v) hord.body
  refine ⟨hbody ▸ hord.body, ?_, fun c hc => ?_⟩
  · rw [withPhi_comments hord, List.pairwise_map]
    exact hord.ascending.imp fun h => Nat.succ_le_succ h
  · rw [withPhi_comments hord] at hc
    obtain ⟨d, hd, rfl⟩ := List.mem_map.1 hc
    have hrange := hord.range d hd
    rw [size_insts] at hrange ⊢
    rw [hphis, hbody, List.length_append, List.length_singleton]
    omega

/-- A new phi extends a block whose phis come first. -/
theorem extends_withPhi (hord : blk.Ordered) : blk.Extends (blk.withPhi v) := by
  obtain ⟨hphis, hbody⟩ := withPhi_parts (v := v) hord.body
  refine ⟨?_, hbody ▸ List.prefix_rfl, ?_⟩
  · rw [hphis, List.map_append]
    exact List.prefix_append _ _
  · rw [remarks, remarks, withPhi_comments hord, hphis, List.map_map, List.length_append,
      List.length_singleton]
    refine List.map_congr_left (fun c _ => ?_) ▸ List.prefix_rfl
    simp only [Function.comp_apply, Nat.add_sub_add_right]

end Block

/-! ## Functions -/

namespace Function

variable {f f' : Function} {R : Block → Block → Prop} {i : Nat} {k : BlockId}

/-- The instruction at a position of a block. -/
def inst? (f : Function) (k : BlockId) (i : Nat) : Option Inst := (f.block? k).bind (·.insts[i]?)

/-- The phi at a position among the phis of a block, without its inputs. -/
def phi? (f : Function) (k : BlockId) (i : Nat) : Option Inst :=
  (f.block? k).bind fun blk => (blk.phis.map Inst.bare)[i]?

/-- Every block of the function has the property. -/
def EachBlock (Q : Block → Prop) (f : Function) : Prop :=
  ∀ (i : Nat) (blk : Block), f.blocks[i]? = some blk → Q blk

/-- The blocks of the first function changed in this way, and empty blocks after them. -/
structure Grows (R : Block → Block → Prop) (f f' : Function) : Prop where
  size_le : f.blocks.size ≤ f'.blocks.size
  block : ∀ (i : Nat) (blk' : Block), f'.blocks[i]? = some blk' →
    (∃ blk, f.blocks[i]? = some blk ∧ R blk blk') ∨
      f.blocks[i]? = none ∧ ∃ name, blk' = ⟨name, none, #[], #[], none⟩

/-- Changing one block grows the function if the change does. -/
theorem grows_modify {k : Nat} {g : Block → Block} (hf : f'.blocks = f.blocks.modify k g)
    (hrefl : ∀ blk, R blk blk) (hg : ∀ blk, f.blocks[k]? = some blk → R blk (g blk)) :
    Grows R f f' := by
  refine ⟨Nat.le_of_eq (by rw [hf, Array.size_modify]), fun i blk' hblk' => ?_⟩
  rw [hf, Array.getElem?_modify] at hblk'
  split at hblk'
  · next heq =>
    obtain ⟨blk, hblk, rfl⟩ := Option.map_eq_some_iff.1 hblk'
    exact .inl ⟨blk, hblk, hg blk (heq ▸ hblk)⟩
  · exact .inl ⟨blk', hblk', hrefl blk'⟩

/-- A declared block grows the function. -/
theorem grows_push {name : String} (hf : f'.blocks = f.blocks.push ⟨name, none, #[], #[], none⟩)
    (hrefl : ∀ blk, R blk blk) : Grows R f f' := by
  refine ⟨by rw [hf, Array.size_push]; exact Nat.le_succ _, fun i blk' hblk' => ?_⟩
  rw [hf, Array.getElem?_push] at hblk'
  split at hblk'
  · next heq =>
    exact .inr ⟨heq ▸ Array.getElem?_eq_none (Nat.le_refl _), name, (Option.some.inj hblk').symm⟩
  · exact .inl ⟨blk', hblk', hrefl blk'⟩

/-- Every block is still there. -/
theorem Grows.of_block (h : Grows R f f') (hblk : f.blocks[i]? = some blk) :
    ∃ blk', f'.blocks[i]? = some blk' ∧ R blk blk' := by
  have hlt := (Array.getElem?_eq_some_iff.1 hblk).1
  have hblk' := Array.getElem?_eq_getElem (Nat.lt_of_lt_of_le hlt h.size_le)
  refine ⟨_, hblk', ?_⟩
  rcases h.block i _ hblk' with ⟨old, hold, hR⟩ | ⟨hnone, -⟩
  · exact Option.some.inj (hold.symm.trans hblk) ▸ hR
  · cases hblk.symm.trans hnone

/-- What the changes give and empty blocks have holds of all blocks. -/
theorem Grows.eachBlock {P Q : Block → Prop} (h : Grows R f f') (hP : f.EachBlock P)
    (hR : ∀ blk blk', P blk → R blk blk' → Q blk')
    (hempty : ∀ name, Q ⟨name, none, #[], #[], none⟩) : f'.EachBlock Q := by
  intro i blk' hblk'
  rcases h.block i blk' hblk' with ⟨blk, hblk, hrel⟩ | ⟨-, name, rfl⟩
  · exact hR blk blk' (hP i blk hblk) hrel
  · exact hempty name

/-- Changes that add no phi leave the phis where they are. -/
theorem Grows.phi? (h : Grows (Block.Quiet targets) f f')
    (hord : f.EachBlock Block.Ordered) : f'.phi? k i = f.phi? k i := by
  simp only [Function.phi?, block?]
  cases hblk : f.blocks[k.index]? with
  | some blk =>
    obtain ⟨blk', hblk', hquiet⟩ := h.of_block hblk
    simp only [hblk', Option.bind_some, (hquiet.parts (hord _ blk hblk).body).1]
  | none =>
    cases hblk' : f'.blocks[k.index]? with
    | none => rfl
    | some blk' =>
      rcases h.block k.index blk' hblk' with ⟨blk, hold, -⟩ | ⟨-, name, rfl⟩
      · cases hblk.symm.trans hold
      · rfl

/-- A phi of an ordered block is one of its phis. -/
theorem exists_inst?_iff (hord : f.EachBlock Block.Ordered) :
    (∃ incoming, f.inst? k i = some (.phi v incoming)) ↔ f.phi? k i = some (.phi v []) := by
  simp only [inst?, Function.phi?, block?]
  cases hblk : f.blocks[k.index]? with
  | none => simp
  | some blk =>
    have hget : blk.insts[i]? = (blk.phis ++ blk.body)[i]? := by
      rw [← Block.insts_eq, Array.getElem?_toList]
    simp only [Option.bind_some, hget, List.getElem?_map, Option.map_eq_some_iff]
    constructor
    · rintro ⟨incoming, h⟩
      rw [List.getElem?_append] at h
      split at h
      · exact ⟨_, h, rfl⟩
      · cases (hord _ blk hblk).body _ (List.mem_of_getElem? h)
    · rintro ⟨inst, h, hbare⟩
      have hlt := (List.getElem?_eq_some_iff.1 h).1
      cases inst with
      | phi dst incoming =>
        cases hbare
        exact ⟨incoming, (List.getElem?_append_left hlt).trans h⟩
      | _ => cases hbare

end Function

/-! ## Calls -/

namespace Builder

variable {b b' : Builder} {ty : Ty} {k : BlockId} {i : Nat}

/-- Every value has one definition, the blocks are ordered, and the phis are where they are noted to
be. -/
structure Coherent (b : Builder) : Prop where
  once : b.Once
  blocks : b.function.EachBlock Block.Ordered
  sites : ∀ v k i, b.phiSites[v.index]? = some (k, i) ↔
    ∃ incoming, b.function.inst? k i = some (.phi v incoming)

/-- Where the next phi of the current block is put. -/
def nextPhi (b : Builder) : Nat := (b.function.block? b.current).elim 0 fun blk => blk.phis.length

/-- A phi has the next value, goes among the phis of the current block, and is noted there. -/
theorem phi_eq : (Build.phi ty b).2 =
    { b with
      function.types := b.function.types.push ty
      function.blocks := b.function.blocks.modify b.current.index
        (Block.insertAt b.nextPhi (.phi ⟨b.function.types.size⟩ []))
      phiSites := b.phiSites.insert b.function.types.size (b.current, b.nextPhi) } := by
  unfold Build.phi nextPhi
  simp only [Build.newValue, bind, StateT.bind, get, getThe, MonadStateOf.get, StateT.get, pure,
    Function.block?]
  cases b.function.blocks[b.current.index]? <;> rfl

/-- A phi is added to the current block. -/
theorem phi_blocks : ((Build.phi ty b).2).function.blocks =
    b.function.blocks.modify b.current.index (Block.withPhi ⟨b.function.types.size⟩) := by
  rw [phi_eq, nextPhi, Function.block?]
  apply Array.ext_getElem?
  intro j
  simp only [Array.getElem?_modify]
  split
  · next heq =>
    subst heq
    cases b.function.blocks[b.current.index]? <;> rfl
  · rfl

/-- A call adds a phi or leaves all phis where they are. -/
theorem Edit.phi_or_quiet (hedit : Edit b targets b') : (∃ ty, b' = (Build.phi ty b).2) ∨
    b'.phiSites = b.phiSites ∧ Function.Grows (Block.Quiet targets) b.function b'.function := by
  have hmodify : ∀ (k : BlockId) (g : Block → Block), (∀ blk, Block.Quiet targets blk (g blk)) →
      Function.Grows (Block.Quiet targets) b.function ((Build.modifyBlock k g b).2).function :=
    fun k g hg => Function.grows_modify rfl (fun _ => .same) fun blk _ => hg blk
  cases hedit with
  | phi ty => exact .inl ⟨ty, rfl⟩
  | declare name => exact .inr ⟨rfl, Function.grows_push rfl fun _ => .same⟩
  | start => exact .inr ⟨rfl, Nat.le_refl _, fun i blk h => .inl ⟨blk, h, .same⟩⟩
  | label block text => exact .inr ⟨rfl, hmodify block _ fun _ => .label text⟩
  | comment text => exact .inr ⟨rfl, hmodify b.current _ fun _ => .remark text⟩
  | terminate t ht => exact .inr ⟨rfl, hmodify b.current _ fun _ => .finish t ht⟩
  | effect inst _ hphi => exact .inr ⟨rfl, hmodify b.current _ fun _ => .push inst hphi⟩
  | define ty inst _ hphi =>
    exact .inr ⟨rfl, Function.grows_modify rfl (fun _ => .same) fun _ _ => .push _ (hphi _)⟩
  | input phi pred value => exact .inr ⟨rfl, hmodify _ _ fun _ => .input _ pred value⟩

/-- A call changes blocks in the ways known or adds an empty one. -/
theorem Edit.grows (hedit : Edit b targets b') :
    Function.Grows (fun blk blk' => Block.Quiet targets blk blk' ∨ ∃ v, blk' = blk.withPhi v)
      b.function b'.function := by
  rcases hedit.phi_or_quiet with ⟨ty, rfl⟩ | ⟨-, hgrows⟩
  · exact Function.grows_modify phi_blocks (fun _ => .inl .same) fun _ _ => .inr ⟨_, rfl⟩
  · refine ⟨hgrows.size_le, fun i blk' hblk' => (hgrows.block i blk' hblk').imp_left ?_⟩
    exact fun ⟨blk, hblk, hquiet⟩ => ⟨blk, hblk, .inl hquiet⟩

/-- The new phi is after the phis of the current block, and all others are where they were. -/
theorem phi?_phi (hblk : b.function.block? b.current = some blk) (hord : blk.Ordered) :
    ((Build.phi ty b).2).function.phi? k i = if k = b.current ∧ i = blk.phis.length then
      some (.phi ⟨b.function.types.size⟩ []) else b.function.phi? k i := by
  rw [Function.block?] at hblk
  simp only [Function.phi?, Function.block?, phi_blocks, Array.getElem?_modify]
  by_cases hk : k = b.current
  · subst hk
    rw [if_pos rfl, hblk, Option.map_some, Option.bind_some, Option.bind_some,
      (Block.withPhi_parts hord.body).1, List.map_append, List.getElem?_append, List.length_map]
    by_cases hlt : i < blk.phis.length
    · rw [if_pos hlt, if_neg fun h => Nat.ne_of_lt hlt h.2]
    · rw [if_neg hlt]
      by_cases heq : i = blk.phis.length
      · rw [if_pos ⟨rfl, heq⟩, heq, Nat.sub_self]
        rfl
      · rw [if_neg fun h => heq h.2, List.getElem?_eq_none (by simp; omega),
          List.getElem?_eq_none (by simp; omega)]
  · have hne : b.current.index ≠ k.index := fun h => hk (by cases k; cases h; rfl)
    rw [if_neg hne, if_neg fun h => hk h.1]

/-- The builder notes a phi at the place that it gets. -/
theorem phiSites_phi (hblk : b.function.block? b.current = some blk) :
    ((Build.phi ty b).2).phiSites =
      b.phiSites.insert b.function.types.size (b.current, blk.phis.length) := by
  rw [phi_eq, nextPhi, hblk]
  rfl

/-- A noted phi is a value of the function. -/
theorem Coherent.lt_of_phi? (h : Coherent b) (hphi : b.function.phi? k i = some (.phi v [])) :
    v.index < b.function.types.size := by
  obtain ⟨incoming, hinst⟩ := (Function.exists_inst?_iff h.blocks).2 hphi
  obtain ⟨blk, hblk, hget⟩ := Option.bind_eq_some_iff.1 hinst
  have hmem : .phi v incoming ∈ b.function.allInsts :=
    Function.mem_allInsts.2 ⟨k.index, blk, hblk, Array.mem_toList_iff.2 (Array.mem_of_getElem? hget)⟩
  exact h.once.bounded v (mem_dsts.2 ⟨_, hmem, rfl⟩)

/-- A call keeps a builder coherent. -/
theorem Coherent.edit (h : Coherent b) (hedit : Edit b targets b') : Coherent b' := by
  have hord : b'.function.EachBlock Block.Ordered := by
    refine hedit.grows.eachBlock h.blocks (fun blk blk' hord hchange => ?_) fun name =>
      ⟨fun _ h => absurd h List.not_mem_nil, .nil, fun _ h => absurd h List.not_mem_nil⟩
    rcases hchange with hquiet | ⟨v, rfl⟩
    · exact hquiet.ordered hord
    · exact hord.withPhi
  refine ⟨h.once.edit hedit, hord, fun v k i => ?_⟩
  have hsites : ∀ v k i, b.phiSites[v.index]? = some (k, i) ↔
      b.function.phi? k i = some (.phi v []) := fun v k i =>
    (h.sites v k i).trans (Function.exists_inst?_iff h.blocks)
  rw [Function.exists_inst?_iff hord]
  -- Only a new phi changes what is noted, and only there the places of phis change.
  rcases hedit.phi_or_quiet with ⟨ty, rfl⟩ | ⟨heq, hgrows⟩
  · obtain ⟨blk, hblk⟩ : ∃ blk, b.function.block? b.current = some blk :=
      ⟨_, Array.getElem?_eq_getElem h.once.current⟩
    rw [phiSites_phi hblk, phi?_phi hblk (h.blocks _ _ hblk), Std.TreeMap.getElem?_insert]
    -- The place of the new phi was behind the phis of its block.
    have hfree : b.function.phi? b.current blk.phis.length = none := by
      simp [Function.phi?, hblk]
    by_cases hv : b.function.types.size = v.index
    · obtain rfl : v = ⟨b.function.types.size⟩ := by rw [hv]
      rw [if_pos (by simp)]
      split
      · next hplace => simp [hplace.1, hplace.2]
      · next hplace =>
        refine iff_of_false (fun heq => hplace ?_) fun hphi => ?_
        · cases heq
          exact ⟨rfl, rfl⟩
        · exact Nat.lt_irrefl _ (h.lt_of_phi? hphi)
    · rw [if_neg (by simpa using hv), hsites]
      split
      · next hplace =>
        rw [hplace.1, hplace.2, hfree]
        refine iff_of_false nofun fun heq => hv ?_
        cases heq
        rfl
      · rfl
  · rw [heq, hgrows.phi? h.blocks]
    exact hsites v k i

/-- The empty function is coherent. -/
theorem coherent_new (name : String) : Coherent (.new name) := by
  have hblock : (Builder.new name).function.EachBlock fun blk =>
      blk.insts = #[] ∧ blk.comments = #[] := by
    intro i blk hblk
    cases i with
    | zero =>
      cases hblk
      exact ⟨rfl, rfl⟩
    | succ i => simp [Builder.new] at hblk
  refine ⟨once_new name, fun i blk hblk => ?_, fun v k i => iff_of_false ?_ ?_⟩
  · obtain ⟨hinsts, hcomments⟩ := hblock i blk hblk
    refine ⟨?_, ?_, ?_⟩ <;> simp [Block.body, hinsts, hcomments]
  · simp [Builder.new]
  · rintro ⟨incoming, hinst⟩
    obtain ⟨blk, hblk, hget⟩ := Option.bind_eq_some_iff.1 hinst
    simp [(hblock _ blk hblk).1] at hget

/-- A call takes nothing out of the blocks, and changes no order in them. -/
theorem Coherent.extends_edit (h : Coherent b) (hedit : Edit b targets b') {i : Nat}
    (hblk : b.function.blocks[i]? = some blk) :
    ∃ blk', b'.function.blocks[i]? = some blk' ∧ blk.Extends blk' := by
  obtain ⟨blk', hblk', hchange⟩ := hedit.grows.of_block hblk
  refine ⟨blk', hblk', ?_⟩
  rcases hchange with hquiet | ⟨v, rfl⟩
  · exact hquiet.extends (h.blocks i blk hblk)
  · exact Block.extends_withPhi (h.blocks i blk hblk)

end Builder

/-! ## Validation -/

/-- The errors of a function with a value defined twice, a phi among other instructions, or an end at
a block that is not there. -/
def ValidationError.isStructural : ValidationError → Bool
  | .redefined _ | .misplacedPhi _ | .unknownTarget _ => true
  | _ => false

namespace Function

variable {f : Function} {id : BlockId} {marks : Array Bool} {preds : List BlockId} {e : ValidationError}

/-- A value that is missing is no fault of the structure. -/
theorem checkDefined_error {values : List Value} (h : checkDefined marks id values = .error e) :
    e.isStructural = false := by
  obtain ⟨v, -, h⟩ := forM_eq_error h
  split at h
  · cases h
  · cases h
    rfl

/-- A wrong type is no fault of the structure. -/
theorem type_error {x : Except TypeError Unit} (h : x.mapError (.type id ·) = .error e) :
    e.isStructural = false := by
  obtain ⟨e', -, rfl⟩ := mapError_eq_error.1 h
  rfl

/-- In instructions with the phis first no phi is found misplaced. -/
theorem checkInsts_error {past : Bool} (h : f.checkInsts marks id preds past insts = .error e)
    (hphis : ∀ inst ∈ (if past then insts else insts.dropWhile Inst.isPhi), inst.isPhi = false) :
    e.isStructural = false := by
  induction insts generalizing past with
  | nil => cases h
  | cons inst insts ih =>
    rw [checkInsts] at h
    rcases bind_eq_error.1 h with h | ⟨-, -, h⟩
    · exact checkDefined_error h
    -- The check of the types and of what follows.
    have hrest : ∀ {past' : Bool}, (((f.checkTypes inst).mapError (.type id ·)) >>= fun _ =>
        f.checkInsts marks id preds past' insts) = .error e →
        (∀ inst ∈ (if past' then insts else insts.dropWhile Inst.isPhi), inst.isPhi = false) →
        e.isStructural = false := fun h hphis => by
      rcases bind_eq_error.1 h with h | ⟨-, -, h⟩
      · exact type_error h
      · exact ih h hphis
    cases inst with
    | phi dst incoming =>
      obtain rfl : past = false := by
        cases past with
        | false => rfl
        | true => cases hphis _ List.mem_cons_self
      simp only [unless_eq_error] at h
      rcases h with ⟨h, -⟩ | ⟨-, ⟨-, rfl⟩ | ⟨-, h⟩⟩
      · cases h
      · rfl
      · exact hrest h hphis
    | _ =>
      refine hrest h ?_
      cases past with
      | false => exact fun inst hinst => hphis inst (List.mem_cons_of_mem _ hinst)
      | true => exact fun inst hinst => hphis inst (List.mem_cons_of_mem _ hinst)

/-- A block whose phis come first and whose targets exist fails validation for its values only. -/
theorem checkBlock_error (h : f.checkBlock marks id blk = .error e)
    (hbody : ∀ inst ∈ blk.body, inst.isPhi = false)
    (htargets : ∀ k ∈ blk.successors, k.index < f.blocks.size) : e.isStructural = false := by
  unfold checkBlock at h
  cases hterm : blk.terminator with
  | none =>
    rw [hterm] at h
    cases h
    rfl
  | some t =>
    rw [hterm] at h
    simp only [unless_eq_error] at h
    rcases h with ⟨hany, -⟩ | ⟨-, h⟩
    · obtain ⟨k, hk, hle⟩ := List.any_eq_true.1 hany
      have hmem : k ∈ blk.successors := by rwa [Block.successors, hterm]
      exact absurd (htargets k hmem) (Nat.not_lt.2 (by simpa using hle))
    · rcases bind_eq_error.1 h with h | ⟨-, -, h⟩
      · exact checkInsts_error h hbody
      rcases bind_eq_error.1 h with h | ⟨-, -, h⟩
      · exact checkDefined_error h
      · exact type_error h

end Function

namespace Builder

variable {b b' : Builder} {k : BlockId} {i : Nat} {incoming : List (BlockId × Value)}

/-- Validation finds no structural error in a coherent builder whose ends go to its blocks. -/
theorem Coherent.validate_error (h : Coherent b)
    (htargets : b.function.EachBlock fun blk => ∀ k ∈ blk.successors, k.index < b.function.blocks.size)
    {e : ValidationError} (herror : b.function.validate = .error e) : e.isStructural = false := by
  have hmarks : ∃ marks, Function.markDefined (Array.replicate b.function.types.size false)
      b.function.allInsts = .ok marks := by
    refine (Function.markDefined_spec _ _ fun v hv => ?_).1.2 ⟨?_, fun v _ => ?_⟩
    · simpa using h.once.bounded v hv
    · refine h.once.once.nodup_iff.2 (List.Pairwise.map _ (fun i j hne heq => hne ?_) List.nodup_range)
      cases heq
      rfl
    · simp only [Array.getD_eq_getD_getElem?, Array.getElem?_replicate]
      split <;> rfl
  obtain ⟨marks, hmarks⟩ := hmarks
  rw [Function.validate, hmarks] at herror
  simp only [ok_bind, unless_eq_error] at herror
  rcases herror with ⟨-, rfl⟩ | ⟨-, herror⟩
  · rfl
  · obtain ⟨⟨blk, i⟩, hmem, herror⟩ := forM_eq_error herror
    have hblk : b.function.blocks[i]? = some blk := by
      simpa using List.mem_zipIdx_iff_getElem?.1 hmem
    exact Function.checkBlock_error herror (h.blocks i blk hblk).body (htargets i blk hblk)

/-! ## Inputs of phis -/

/-- The inputs of a phi are read where it is noted. -/
theorem Coherent.incoming_eq (h : Coherent b) (hinst : b.function.inst? k i = some (.phi v incoming)) :
    b.incoming v = incoming := by
  have hsite := (h.sites v k i).2 ⟨incoming, hinst⟩
  rw [Function.inst?] at hinst
  simp only [Builder.incoming, hsite, hinst]

/-- An input goes to the phi that defines the value, and to nothing else. -/
theorem Coherent.addIncoming_spec (h : Coherent b)
    (hinst : b.function.inst? k i = some (.phi v incoming)) (pred : BlockId) (value : Value) :
    ∃ b', Build.addIncoming v pred value b = .ok ((), b') ∧ ∀ k' i', b'.function.inst? k' i' =
      if k' = k ∧ i' = i then some (.phi v (incoming ++ [(pred, value)]))
      else b.function.inst? k' i' := by
  have hsite := (h.sites v k i).2 ⟨incoming, hinst⟩
  refine ⟨_, addIncoming_eq_ok.2 ⟨_, hsite, rfl⟩, fun k' i' => ?_⟩
  change ((b.function.blocks.modify k.index (Block.extendPhi i pred value))[k'.index]?.bind
    (·.insts[i']?)) = _
  -- Only the merge at the site is extended; the other instructions stay where they are.
  obtain ⟨blk, hblk, hget⟩ := Option.bind_eq_some_iff.1 hinst
  rw [Function.block?] at hblk
  rw [Array.getElem?_modify]
  by_cases hk : k' = k
  · subst hk
    rw [if_pos rfl, hblk, Option.map_some, Option.bind_some, Block.extendPhi, Array.getElem?_modify]
    by_cases hi : i' = i
    · subst hi
      rw [if_pos rfl, if_pos ⟨rfl, rfl⟩, hget]
      rfl
    · rw [if_neg (Ne.symm hi), if_neg fun h => hi h.2, Function.inst?, Function.block?, hblk]
      rfl
  · have hne : k.index ≠ k'.index := fun h => hk (by cases k; cases h; rfl)
    rw [if_neg hne, if_neg fun h => hk h.1]
    rfl

end Builder

/-! ## Built functions -/

/-- A comment moves with the instruction after it: both by the phis that were added. -/
theorem Block.Extends.comment (h : blk.Extends blk') (hord : blk.Ordered) (hord' : blk'.Ordered)
    {j pos : Nat} {text : String} (hcomment : blk.comments[j]? = some (pos, text)) :
    blk'.comments[j]? = some (pos + (blk'.phis.length - blk.phis.length), text) ∧
      ∀ inst, blk.insts[pos]? = some inst → inst.isPhi = false ∧
        blk'.insts[pos + (blk'.phis.length - blk.phis.length)]? = some inst := by
  have hphis : blk.phis.length ≤ blk'.phis.length := by
    simpa using h.phis.length_le
  have hmem : ∀ {blk : Block} {c : Nat × String}, blk.comments[j]? = some c → c ∈ blk.comments.toList :=
    fun h => Array.mem_toList_iff.2 (Array.mem_of_getElem? h)
  have hpos := (hord.range _ (hmem hcomment)).1
  constructor
  -- The comment keeps its distance to the phis, and so does the instruction.
  · have hremark : blk.remarks[j]? = some (pos - blk.phis.length, text) := by
      rw [Block.remarks, List.getElem?_map, Array.getElem?_toList, hcomment]
      rfl
    obtain ⟨rest, hrest⟩ := h.remarks
    have hremark' : blk'.remarks[j]? = some (pos - blk.phis.length, text) := by
      rw [← hrest, List.getElem?_append_left (List.getElem?_eq_some_iff.1 hremark).1, hremark]
    rw [Block.remarks, List.getElem?_map, Array.getElem?_toList] at hremark'
    obtain ⟨⟨pos', text'⟩, hcomment', heq⟩ := Option.map_eq_some_iff.1 hremark'
    have hpos' := (hord'.range _ (hmem hcomment')).1
    obtain ⟨hoffset, rfl⟩ := Prod.ext_iff.1 heq
    rw [hcomment', show pos' = pos + (blk'.phis.length - blk.phis.length) by omega]
  · intro inst hinst
    have hget : ∀ {blk : Block} {n : Nat}, blk.phis.length ≤ n →
        blk.insts[n]? = blk.body[n - blk.phis.length]? := fun {blk n} hle => by
      rw [← Array.getElem?_toList, insts_eq, List.getElem?_append_right hle]
    rw [hget hpos] at hinst
    refine ⟨hord.body inst (List.mem_of_getElem? hinst), ?_⟩
    obtain ⟨rest, hrest⟩ := h.body
    rw [hget (by omega), ← hrest, show pos + (blk'.phis.length - blk.phis.length) - blk'.phis.length =
      pos - blk.phis.length by omega, List.getElem?_append_left (List.getElem?_eq_some_iff.1 hinst).1,
      hinst]

/-- A call leaves the targets of a block or sets them to those it was given. -/
theorem Block.Quiet.successors (h : Quiet targets blk blk') :
    blk'.successors = blk.successors ∨ blk'.successors = targets := by
  cases h with
  | finish t ht => exact .inr ht
  | _ => exact .inl rfl

namespace Builder

variable {b b₀ : Builder} {calls before after : List Call}

/-- What calls of the builder make is coherent. -/
theorem coherent_of_calls {name : String} (h : ofCalls name calls = .ok b) : Coherent b :=
  invariant_of_calls coherent_new (fun _ _ _ hb hedit => hb.edit hedit) h

/-- The ends that calls give to blocks go to blocks that the calls name. -/
theorem targets_of_calls {name : String} (h : ofCalls name calls = .ok b) {n : Nat}
    (hown : ∀ call ∈ calls, ∀ k ∈ call.targets, k.index < n) :
    b.function.EachBlock fun blk => ∀ k ∈ blk.successors, k.index < n := by
  refine invariant_of_run
    (P := fun b => b.function.EachBlock fun blk => ∀ k ∈ blk.successors, k.index < n)
    (fun call hcall b b' hb hedit => ?_) ?_ h
  · refine hedit.grows.eachBlock hb (fun blk blk' hblk hchange => ?_) fun name k hk =>
      absurd hk List.not_mem_nil
    rcases hchange with hquiet | ⟨v, rfl⟩
    · rcases hquiet.successors with heq | heq
      · exact heq ▸ hblk
      · exact heq ▸ hown call hcall
    · exact hblk
  · intro i blk hblk k hk
    cases i with
    | zero =>
      cases hblk
      cases hk
    | succ i => simp [Builder.new] at hblk

/-- Later calls extend the blocks that there are. -/
theorem extends_of_run (h : Coherent b₀) (hafter : after.foldlM Call.run b₀ = .ok b) {i : Nat}
    (hblk : b₀.function.blocks[i]? = some blk) :
    ∃ blk', b.function.blocks[i]? = some blk' ∧ blk.Extends blk' := by
  refine (invariant_of_run (P := fun b => Coherent b ∧ ∃ blk', b.function.blocks[i]? = some blk' ∧
    blk.Extends blk') (fun call _ b₁ b₂ hb hedit => ?_) ⟨h, blk, hblk, .refl blk⟩ hafter).2
  obtain ⟨hcoherent, blk₁, hblk₁, hext⟩ := hb
  obtain ⟨blk₂, hblk₂, hext'⟩ := hcoherent.extends_edit hedit hblk₁
  exact ⟨hcoherent.edit hedit, blk₂, hblk₂, hext.trans hext'⟩

/-- After any calls that let control go to declared blocks alone, every value is defined by one
instruction, the phis stand first in their blocks and are where they are noted to be, so that an input
goes to the phi that was meant and to nothing else, comments are in order, and all ends go to blocks of
the function. The calls after some point leave what is in a block in its order, and a comment stays
before the same instruction. Validation finds none of the errors that this excludes. -/
theorem representation_of_calls {name : String} (hbefore : ofCalls name before = .ok b₀)
    (hafter : after.foldlM Call.run b₀ = .ok b)
    (hown : ∀ call ∈ before ++ after, ∀ k ∈ call.targets, k.index < b.function.blocks.size) :
    Coherent b ∧
    (∀ v incoming k i, b.function.inst? k i = some (.phi v incoming) → b.incoming v = incoming ∧
      ∀ pred value, ∃ b', Build.addIncoming v pred value b = .ok ((), b') ∧
        ∀ k' i', b'.function.inst? k' i' =
          if k' = k ∧ i' = i then some (.phi v (incoming ++ [(pred, value)]))
          else b.function.inst? k' i') ∧
    (∀ (i : Nat) (blk : Block), b₀.function.blocks[i]? = some blk →
      ∃ blk', b.function.blocks[i]? = some blk' ∧ blk.Extends blk' ∧
      ∀ (j pos : Nat) (text : String),
        blk.comments[j]? = some (pos, text) →
        blk'.comments[j]? = some (pos + (blk'.phis.length - blk.phis.length), text) ∧
        ∀ inst, blk.insts[pos]? = some inst → inst.isPhi = false ∧
          blk'.insts[pos + (blk'.phis.length - blk.phis.length)]? = some inst) ∧
    (b.function.EachBlock fun blk => ∀ k ∈ blk.successors, k.index < b.function.blocks.size) ∧
    (∀ v, b.function.validate ≠ .error (.redefined v)) ∧
    (∀ v, b.function.validate ≠ .error (.misplacedPhi v)) ∧
    ∀ k, b.function.validate ≠ .error (.unknownTarget k) := by
  -- The calls after those before are one sequence, and coherence holds after every sequence.
  have hcalls : ofCalls name (before ++ after) = .ok b := by
    rw [ofCalls, List.foldlM_append, bind_eq_ok]
    exact ⟨b₀, hbefore, hafter⟩
  have hb := coherent_of_calls hcalls
  have hb₀ := coherent_of_calls hbefore
  have htargets := targets_of_calls hcalls hown
  have hvalidate : ∀ e, e.isStructural = true → b.function.validate ≠ .error e := fun e he herror => by
    rw [hb.validate_error htargets herror] at he
    cases he
  refine ⟨hb, fun v incoming k i hinst => ⟨hb.incoming_eq hinst, hb.addIncoming_spec hinst⟩,
    fun i blk hblk => ?_, htargets, fun v => hvalidate _ rfl, fun v => hvalidate _ rfl,
    fun k => hvalidate _ rfl⟩
  obtain ⟨blk', hblk', hext⟩ := extends_of_run hb₀ hafter hblk
  exact ⟨blk', hblk', hext, fun j pos text =>
    hext.comment (hb₀.blocks i blk hblk) (hb.blocks i blk' hblk')⟩

/-- The calls that make a block with a comment and end it. -/
def commentedBlock : List Call :=
  [.const .i32 3, .declareBlock "twice", .terminate (.jump ⟨1⟩), .startBlock ⟨1⟩, .comment "sum",
    .binary .add ⟨0⟩ ⟨0⟩, .terminate (.exit ⟨1⟩ .fallthrough)]

/-- The calls that add a phi with an input and an instruction to the block that ended. -/
def latePhi : List Call := [.phi .i32, .addIncoming ⟨2⟩ ⟨0⟩ ⟨0⟩, .unary .not ⟨1⟩]

/-- A phi that is added to a block that ended goes before the instruction with the comment, the
comment moves with the instruction, and the phi gets its input. -/
theorem late_phi_coherent : ∃ b₀ b blk blk', ofCalls "f" commentedBlock = .ok b₀ ∧
    latePhi.foldlM Call.run b₀ = .ok b ∧
    b₀.function.blocks[1]? = some blk ∧ blk.insts = #[.binary ⟨1⟩ .add ⟨0⟩ ⟨0⟩] ∧
    blk.comments = #[(0, "sum")] ∧
    Coherent b ∧ b.function.blocks[1]? = some blk' ∧ blk'.comments[0]? = some (1, "sum") ∧
    blk'.insts[1]? = some (.binary ⟨1⟩ .add ⟨0⟩ ⟨0⟩) ∧ b.incoming ⟨2⟩ = [(⟨0⟩, ⟨0⟩)] ∧
    ∀ k, b.function.validate ≠ .error (.unknownTarget k) := by
  obtain ⟨b₀, hb₀⟩ : ∃ b, b = (ofCalls "f" commentedBlock).toOption.get rfl := ⟨_, rfl⟩
  have hbefore : ofCalls "f" commentedBlock = .ok b₀ := by rw [hb₀]; rfl
  obtain ⟨b, hb⟩ : ∃ b, b = (latePhi.foldlM Call.run b₀).toOption.get (by rw [hb₀]; rfl) := ⟨_, rfl⟩
  have hafter : latePhi.foldlM Call.run b₀ = .ok b := by subst hb₀; rw [hb]; rfl
  have hsize : b.function.blocks.size = 2 := by subst hb₀; rw [hb]; rfl
  obtain ⟨hcoherent, hinputs, hkept, -, -, -, htargets⟩ :=
    representation_of_calls hbefore hafter (by rw [hsize]; decide)
  obtain ⟨blk, hblk, hinsts, hcomments, hphis⟩ : ∃ blk, b₀.function.blocks[1]? = some blk ∧
      blk.insts = #[.binary ⟨1⟩ .add ⟨0⟩ ⟨0⟩] ∧ blk.comments = #[(0, "sum")] ∧ blk.phis = [] := by
    rw [hb₀]
    exact ⟨_, rfl, rfl, rfl, rfl⟩
  obtain ⟨blk', hblk', -, hcomment⟩ := hkept 1 blk hblk
  have hphis' : b.function.blocks[1]?.map (·.phis.length) = some 1 := by subst hb₀; rw [hb]; rfl
  have hinst : b.function.inst? ⟨1⟩ 0 = some (.phi ⟨2⟩ [(⟨0⟩, ⟨0⟩)]) := by subst hb₀; rw [hb]; rfl
  have hlen : blk'.phis.length = 1 := by
    rw [hblk'] at hphis'
    exact Option.some.inj hphis'
  obtain ⟨hmoved, hfollows⟩ := hcomment 0 0 "sum" (by rw [hcomments]; rfl)
  rw [hlen, hphis] at hmoved hfollows
  exact ⟨b₀, b, blk, blk', hbefore, hafter, hblk, hinsts, hcomments, hcoherent, hblk', hmoved,
    (hfollows _ (by rw [hinsts]; rfl)).2, (hinputs _ _ _ _ hinst).1, htargets⟩

end Builder

end HotRegion.Ssa
