import HotRegion.Proofs.Ssa.Built
import HotRegion.Ssa.Eval

/-!
# Runs of validated functions

A run of a valid function goes from the entry to blocks of the function over edges of the function.
Every phi it meets after the entry therefore has an incoming value for the block that control came
from, and every block it meets ends. A phi in the entry block, which has no predecessors to cover,
is the one thing that validation lets through and a run cannot pass.

## Key results

- `runFrom_ne_stuck`: from any block entered over an edge a run does not get stuck
- `stuck_iff_phi_in_entry`: a run gets stuck exactly if the entry block has a phi
-/

namespace HotRegion.Ssa

variable {f : Function} {id : BlockId} {b : Block}

/-! ## Edges -/

/-- The predecessors of a block are the blocks that go on at it. -/
theorem Function.mem_predecessors {p : BlockId} :
    p ∈ f.predecessors id ↔ ∃ b, f.block? p = some b ∧ id ∈ b.successors := by
  simp only [predecessors, blockIds, block?, List.mem_filter, List.mem_map, List.mem_range]
  constructor
  · rintro ⟨⟨i, hi, rfl⟩, hmem⟩
    cases hb : f.blocks[i]? with
    | none => simp [hb] at hmem
    | some b => exact ⟨b, rfl, by simpa [hb] using hmem⟩
  · rintro ⟨b, hb, hmem⟩
    have hlt : p.index < f.blocks.size := (Array.getElem?_eq_some_iff.1 hb).1
    exact ⟨⟨p.index, hlt, rfl⟩, by simpa [hb] using hmem⟩

/-- A phi that covers the predecessors of its block has a value for each of them. -/
theorem Function.find_of_covers {preds : List BlockId} {incoming : List (BlockId × Value)}
    (h : coversPredecessors preds incoming = true) {p : BlockId} (hp : p ∈ preds) :
    ∃ x, incoming.find? (·.1 == p) = some x := by
  simp only [coversPredecessors, Bool.and_eq_true, List.all_eq_true, beq_iff_eq] at h
  have hpos : 0 < incoming.countP (·.1 == p) := by
    rw [h.2 p hp]
    exact Nat.one_pos
  obtain ⟨x, hx, hxp⟩ := List.countP_pos_iff.1 hpos
  exact Option.isSome_iff_exists.1 (List.find?_isSome.2 ⟨x, hx, hxp⟩)

/-! ## Steps -/

section

variable {σ : Type} [GuestMachine σ] {fr : Frame σ}

/-- No instruction gets stuck but a phi out of place. -/
theorem stepInst_ok (f : Function) (fr : Frame σ) {inst : Inst} (h : inst.isPhi = false) :
    ∃ fr', stepInst f fr inst = .ok fr' := by
  cases inst with
  | phi dst incoming => cases h
  | _ => exact ⟨_, rfl⟩

/-- A block without phis does not get stuck. -/
theorem foldlM_stepInst_ok (f : Function) (fr : Frame σ) {insts : List Inst}
    (h : ∀ inst ∈ insts, inst.isPhi = false) :
    ∃ fr', insts.foldlM (stepInst f) fr = .ok fr' := by
  induction insts generalizing fr with
  | nil => exact ⟨fr, rfl⟩
  | cons inst insts ih =>
    obtain ⟨fr₁, h₁⟩ := stepInst_ok f fr (h inst List.mem_cons_self)
    obtain ⟨fr', h'⟩ := ih fr₁ fun i hi => h i (List.mem_cons_of_mem _ hi)
    exact ⟨fr', by rw [List.foldlM_cons, h₁]; exact h'⟩

/-- A loop succeeds if every step does. -/
theorem mapM_ok {ε α β : Type} {g : α → Except ε β} {l : List α} (h : ∀ a ∈ l, ∃ y, g a = .ok y) :
    ∃ ys, l.mapM g = .ok ys := by
  induction l with
  | nil => exact ⟨[], rfl⟩
  | cons a l ih =>
    obtain ⟨y, hy⟩ := h a List.mem_cons_self
    obtain ⟨ys, hys⟩ := ih fun x hx => h x (List.mem_cons_of_mem _ hx)
    exact ⟨y :: ys, by rw [List.mapM_cons, hy, hys]; rfl⟩

omit [GuestMachine σ] in
/-- The phis of a valid block have a value for every predecessor. -/
theorem phiValue_ok (hb : f.ValidBlock id b) {p : BlockId} (hp : p ∈ f.predecessors id) {inst : Inst}
    (hinst : inst ∈ b.insts.toList) : ∃ x, phiValue fr (some p) inst = .ok x := by
  cases inst with
  | phi dst incoming =>
    obtain ⟨⟨k, v⟩, hx⟩ := Function.find_of_covers (hb.covers dst incoming hinst) hp
    exact ⟨(dst, fr.get v), by simp [phiValue, hx]⟩
  | _ => exact ⟨_, rfl⟩

omit [GuestMachine σ] in
/-- A block that is entered from a predecessor finds an input for every phi. -/
theorem enterBlock_ok (fr : Frame σ) (hb : f.ValidBlock id b) {p : BlockId} (hp : p ∈ f.predecessors id) :
    ∃ fr', enterBlock fr (some p) b = .ok fr' := by
  have hphis : ∀ inst ∈ b.phis, ∃ x, phiValue fr (some p) inst = .ok x := fun inst hinst =>
    phiValue_ok hb hp ((List.takeWhile_sublist _).subset hinst)
  obtain ⟨ys, hys⟩ := mapM_ok hphis
  exact ⟨_, by rw [enterBlock, hys]; rfl⟩

/-- A valid block whose phis have their values runs to its end, and control goes to a block that the
block has an edge to or leaves. -/
theorem runBlock_ok (hf : f.Valid) (hb : f.block? id = some b) {pred : Option BlockId} {fr₁ : Frame σ}
    (henter : enterBlock fr pred b = .ok fr₁) :
    ∃ fr' next, runBlock f fr pred id = .ok (fr', next) ∧
      ∀ k, next = .block k → id ∈ f.predecessors k ∧ k.index < f.blocks.size := by
  have hvalid : f.ValidBlock id b := hf.block id.index b hb
  obtain ⟨fr₂, hbody⟩ := foldlM_stepInst_ok f fr₁ hvalid.body
  obtain ⟨t, ht, htargets, -⟩ := hvalid.ends
  refine ⟨fr₂, endBlock fr₂ t, ?_, ?_⟩
  · simp only [runBlock, hb, ht, henter]
    change (b.body.foldlM (stepInst f) fr₁ >>= _) = _
    rw [hbody]
    rfl
  -- The terminator was validated, so its targets are blocks with this one as predecessor.
  · intro k hk
    have hmem : k ∈ t.successors := by
      cases t with
      | jump target =>
        cases hk
        exact List.mem_singleton.2 rfl
      | branch cond ifTrue ifFalse weights =>
        cases hk
        simp only [Terminator.successors]
        split <;> split <;> simp_all
      | exit pc reason => cases hk
    exact ⟨Function.mem_predecessors.2 ⟨b, hb, by simpa [Block.successors, ht] using hmem⟩,
      htargets k hmem⟩

/-! ## Runs -/

/-- A run from a block that was entered over an edge does not get stuck. -/
theorem runFrom_ne_stuck (hf : f.Valid) {fuel : Nat} {p : BlockId} (hp : p ∈ f.predecessors id)
    (hid : id.index < f.blocks.size) (cause : Stuck) :
    runFrom f fuel fr (some p) id ≠ .stuck cause := by
  induction fuel generalizing fr p id with
  | zero => simp [runFrom]
  | succ fuel ih =>
    have hb : f.block? id = some f.blocks[id.index] := Array.getElem?_eq_getElem hid
    obtain ⟨fr₁, henter⟩ := enterBlock_ok fr (hf.block id.index _ hb) hp
    obtain ⟨fr', next, hrun, hnext⟩ := runBlock_ok hf hb henter
    rw [runFrom, hrun]
    cases next with
    | exit e => simp
    | block k => exact ih (hnext k rfl).1 (hnext k rfl).2

omit [GuestMachine σ] in
/-- Control comes to the entry block from nowhere, so that it can be entered exactly if it has no
phis. -/
theorem enterBlock_none (fr : Frame σ) :
    enterBlock fr none b = if b.phis = [] then .ok fr else .error .phiInEntry := by
  cases hphis : b.phis with
  | nil =>
    rw [enterBlock, hphis]
    rfl
  | cons inst insts =>
    have hphi : inst.isPhi = true := Block.phi_of_mem (hphis ▸ List.mem_cons_self)
    cases inst with
    | phi dst incoming =>
      rw [enterBlock, hphis, if_neg (List.cons_ne_nil _ _), List.mapM_cons]
      rfl
    | _ => cases hphi

/-- A run of a valid function gets stuck only at a phi of the entry block. -/
theorem run_eq_stuck_iff (hf : f.Valid) (hb : f.block? Function.entry = some b) {fuel : Nat} {m : σ}
    {cause : Stuck} :
    run fuel f m = .stuck cause ↔ 0 < fuel ∧ b.phis ≠ [] ∧ cause = .phiInEntry := by
  cases fuel with
  | zero => simp [run, runFrom]
  | succ fuel =>
    by_cases hphis : b.phis = []
    · obtain ⟨fr', next, hrun, hnext⟩ := runBlock_ok hf hb
        ((enterBlock_none ⟨.replicate f.types.size 0, m⟩).trans (if_pos hphis))
      simp only [run, runFrom, hrun, hphis, ne_eq, not_true_eq_false, false_and, and_false, iff_false]
      cases next with
      | exit e => simp
      | block k => exact runFrom_ne_stuck hf (hnext k rfl).1 (hnext k rfl).2 cause
    · have hrun : runBlock f ⟨.replicate f.types.size 0, m⟩ none Function.entry =
          .error .phiInEntry := by
        simp only [runBlock, hb, enterBlock_none, if_neg hphis]
        rfl
      simp [run, runFrom, hrun, hphis, eq_comm]

end

/-! ## Built functions -/

/-- Every number of a value or a block that a function names is one of its own. -/
structure Function.InRange (f : Function) : Prop where
  entry : Function.entry.index < f.blocks.size
  inst : ∀ (i : Nat) (b : Block), f.blocks[i]? = some b → ∀ inst ∈ b.insts.toList,
    ∀ v ∈ inst.dst?.toList ++ inst.operands, v.index < f.types.size
  ends : ∀ (i : Nat) (b : Block), f.blocks[i]? = some b → ∃ t, b.terminator = some t ∧
    (∀ v ∈ t.operands, v.index < f.types.size) ∧ ∀ k ∈ t.successors, k.index < f.blocks.size

/-- A valid function stays within its blocks and values. -/
theorem Function.Valid.inRange (hf : f.Valid) (hbound : ∀ v, f.Defines v → v.index < f.types.size)
    (hentry : Function.entry.index < f.blocks.size) : f.InRange where
  entry := hentry
  inst i b hb inst hinst v hv := by
    rcases List.mem_append.1 hv with hdst | hop
    · refine hbound v (mem_dsts.2 ⟨inst, mem_allInsts.2 ⟨i, b, hb, hinst⟩, ?_⟩)
      simpa using hdst
    · exact hbound v ((hf.block i b hb).reads inst hinst v hop)
  ends i b hb := by
    obtain ⟨t, ht, htargets, hops, -⟩ := (hf.block i b hb).ends
    exact ⟨t, ht, fun v hv => hbound v (hops v hv), htargets⟩

/-- A validated function that a builder made names only values and blocks of its own, and a run of
it gets stuck exactly if its entry block has a phi. -/
theorem stuck_iff_phi_in_entry {name : String} {calls : List Builder.Call} {b : Builder}
    (hbuilt : Builder.ofCalls name calls = .ok b) (hvalid : b.function.validate = .ok ()) :
    b.function.InRange ∧
      ∀ (σ : Type) [GuestMachine σ] (fuel : Nat) (m : σ) (cause : Stuck),
        run fuel b.function m = .stuck cause ↔
          0 < fuel ∧ cause = .phiInEntry ∧
            ∃ entry, b.function.block? Function.entry = some entry ∧ entry.phis ≠ [] := by
  have hbound := Builder.bounded_of_calls hbuilt
  have hpos := Builder.entry_of_calls hbuilt
  have hf : b.function.Valid := (Function.validate_eq_ok_iff hbound).1 hvalid
  refine ⟨hf.inRange hbound hpos, fun σ _ fuel m cause => ?_⟩
  have hb : b.function.block? Function.entry = some b.function.blocks[0] :=
    Array.getElem?_eq_getElem hpos
  rw [run_eq_stuck_iff hf hb]
  constructor
  · rintro ⟨hfuel, hphis, hcause⟩
    exact ⟨hfuel, hcause, _, hb, hphis⟩
  · rintro ⟨hfuel, hcause, entry, hentry, hphis⟩
    cases hb.symm.trans hentry
    exact ⟨hfuel, hphis, hcause⟩

/-- The calls that make a function with a phi after the entry block. -/
def Builder.countdown : List Builder.Call :=
  [.const .i32 3, .const .i32 1, .declareBlock "loop", .declareBlock "done", .terminate (.jump ⟨1⟩),
    .startBlock ⟨1⟩, .phi .i32, .binary .sub ⟨2⟩ ⟨1⟩, .icmp .ne ⟨3⟩ ⟨1⟩, .addIncoming ⟨2⟩ ⟨0⟩ ⟨0⟩,
    .addIncoming ⟨2⟩ ⟨1⟩ ⟨3⟩, .terminate (.branch ⟨4⟩ ⟨1⟩ ⟨2⟩ none), .startBlock ⟨2⟩,
    .terminate (.exit ⟨3⟩ .fallthrough)]

/-- The function with a loop is validated and its runs never get stuck. -/
theorem countdown_never_stuck : ∃ b, Builder.ofCalls "f" Builder.countdown = .ok b ∧
    b.function.validate = .ok () ∧ b.function.InRange ∧
    ∀ (fuel : Nat) (m : Machine.State) (cause : Stuck), run fuel b.function m ≠ .stuck cause := by
  obtain ⟨b, hbuilt, hvalid, hphis⟩ : ∃ b, Builder.ofCalls "f" Builder.countdown = .ok b ∧
      b.function.validate = .ok () ∧ (b.function.block? Function.entry).map Block.phis = some [] :=
    ⟨_, rfl, rfl, rfl⟩
  obtain ⟨hrange, hstuck⟩ := stuck_iff_phi_in_entry hbuilt hvalid
  refine ⟨b, hbuilt, hvalid, hrange, fun fuel m cause h => ?_⟩
  obtain ⟨-, -, entry, hentry, hne⟩ := (hstuck Machine.State fuel m cause).1 h
  rw [hentry] at hphis
  exact hne (Option.some.inj hphis)

/-- Validation accepts a phi in the entry block, and every run then gets stuck at it. -/
theorem phi_in_entry_gets_stuck : ∃ b,
    Builder.ofCalls "f" [.phi .i32, .terminate (.exit ⟨0⟩ .fallthrough)] = .ok b ∧
    b.function.validate = .ok () ∧
    ∀ (fuel : Nat) (m : Machine.State), run (fuel + 1) b.function m = .stuck .phiInEntry :=
  ⟨_, rfl, rfl, fun _ _ => rfl⟩

end HotRegion.Ssa
