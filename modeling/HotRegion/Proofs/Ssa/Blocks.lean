import HotRegion.Proofs.Ssa.Strict
import HotRegion.Proofs.Ssa.Watched

/-!
# Running blocks

A block of phis and straight-line code, run as a whole: the phis take their inputs as they were
before, the equations of the code hold at the end, and all values of other blocks stay. A run that
exits does so with more fuel too.

## Key results

- `runBlock_spec`: running one block
- `runFrom_mono`: more fuel makes no difference to a run that exits
-/

namespace HotRegion.Ssa

variable {f : Function} {id : BlockId} {b : Block} {phis code : List Inst} {c c' : Context}

section

variable {σ : Type}

/-- Assigning values one after the other. -/
theorem foldl_set_spec (fr : Frame σ) (l : List (Value × UInt64)) (hnodup : (l.map Prod.fst).Nodup)
    (hbound : ∀ p ∈ l, p.1.index < fr.values.size) :
    ∃ fr' : Frame σ, l.foldl (fun fr p => fr.set p.1 p.2) fr = fr' ∧ fr'.machine = fr.machine ∧
      fr'.values.size = fr.values.size ∧ (∀ p ∈ l, fr'.get p.1 = p.2) ∧
      ∀ v, v ∉ l.map Prod.fst → fr'.get v = fr.get v := by
  induction l generalizing fr with
  | nil => exact ⟨fr, rfl, rfl, rfl, by simp, fun _ _ => rfl⟩
  | cons p l ih =>
    obtain ⟨hp, hnodup⟩ := List.nodup_cons.1 hnodup
    have hsize : (fr.set p.1 p.2).values.size = fr.values.size := by simp [Frame.set]
    have hother : ∀ v : Value, v ≠ p.1 → (fr.set p.1 p.2).get v = fr.get v := by
      intro v hv
      have hne : p.1.index ≠ v.index := fun h => hv (by cases v; cases hp' : p.1; simp_all)
      simp [Frame.get, Frame.set, hne]
    have hself : (fr.set p.1 p.2).get p.1 = p.2 := by
      have hlt := hbound p List.mem_cons_self
      simp [Frame.get, Frame.set, hlt]
    -- Later assignments do not touch this value, since all are different.
    obtain ⟨fr', hfold, hmachine, hsize', hget, hkeep⟩ := ih (fr.set p.1 p.2) hnodup
      fun q hq => hsize ▸ hbound q (List.mem_cons_of_mem _ hq)
    refine ⟨fr', hfold, hmachine, hsize'.trans hsize, ?_, fun v hv => ?_⟩
    · refine List.forall_mem_cons.2 ⟨?_, hget⟩
      rw [hkeep p.1 hp, hself]
    · rw [List.map_cons, List.mem_cons, not_or] at hv
      rw [hkeep v hv.2, hother v hv.1]

/-- The phis of a block that have an input for where control comes from. -/
theorem enterBlock_spec (fr : Frame σ) {pred : Option BlockId} (hphis : ∀ inst ∈ b.phis, inst.isPhi = true)
    (hnodup : (dsts b.phis).Nodup) (hbound : ∀ v ∈ dsts b.phis, v.index < fr.values.size)
    (hinputs : ∀ inst ∈ b.phis, ∃ p v, pred = some p ∧ inst.input? p = some v) :
    ∃ fr', enterBlock fr pred b = .ok fr' ∧ fr'.machine = fr.machine ∧
      fr'.values.size = fr.values.size ∧
      (∀ inst ∈ b.phis, ∀ dst p v, inst.dst? = some dst → pred = some p → inst.input? p = some v →
        fr'.get dst = fr.get v) ∧
      ∀ v, v ∉ dsts b.phis → fr'.get v = fr.get v := by
  let input (inst : Inst) : Value := (pred.bind inst.input?).getD ⟨0⟩
  let assign (inst : Inst) : Value × UInt64 := ((inst.dst?).getD ⟨0⟩, fr.get (input inst))
  -- All phis read the frame as it was before the block, so their values are assigned at once.
  have hvalue : ∀ inst ∈ b.phis, phiValue fr pred inst = .ok (assign inst) := by
    intro inst hi
    obtain ⟨p, v, rfl, hv⟩ := hinputs inst hi
    cases inst with
    | phi dst incoming =>
      obtain ⟨⟨q, w⟩, hfind, rfl⟩ := Option.map_eq_some_iff.1 hv
      simp [phiValue, hfind, assign, input, Inst.input?, Inst.dst?]
    | _ => cases hphis _ hi
  have hmap : ∀ l : List Inst, (∀ inst ∈ l, phiValue fr pred inst = .ok (assign inst)) →
      l.mapM (phiValue fr pred) = .ok (l.map assign) := by
    intro l
    induction l with
    | nil => exact fun _ => rfl
    | cons inst l ih =>
      intro hl
      rw [List.mapM_cons, hl inst List.mem_cons_self,
        ih fun i hi => hl i (List.mem_cons_of_mem _ hi)]
      rfl
  have hfst : ∀ l : List Inst, (∀ inst ∈ l, inst.isPhi = true) →
      (l.map assign).map Prod.fst = dsts l := by
    intro l
    induction l with
    | nil => exact fun _ => rfl
    | cons inst l ih =>
      intro hl
      obtain ⟨hphi, hl⟩ := List.forall_mem_cons.1 hl
      rw [List.map_cons, List.map_cons, ih hl]
      cases inst <;> first | rfl | cases hphi
  obtain ⟨fr', hfold, hmachine, hsize, hget, hkeep⟩ := foldl_set_spec fr (b.phis.map assign)
    (hfst _ hphis ▸ hnodup) fun p hp => hbound _ (hfst _ hphis ▸ List.mem_map_of_mem hp)
  refine ⟨fr', ?_, hmachine, hsize, fun inst hi dst p v hdst hp hv => ?_, fun v hv => ?_⟩
  · rw [enterBlock, hmap _ hvalue, ← hfold]
    rfl
  · have hassign := hget _ (List.mem_map_of_mem hi)
    simp only [assign, input, hdst, hp, Option.getD_some, Option.bind_some, hv] at hassign
    exact hassign
  · exact hkeep v (hfst _ hphis ▸ hv)

end

/-- Running a block: the phis take their inputs, and at the end the equations of the code hold. Values
that the block does not define stay as they are. -/
theorem runBlock_spec (fr : Frame Watched) (pred : Option BlockId) {t : Terminator}
    (hb : f.block? id = some b) (hinsts : b.insts.toList = phis ++ code) (hterm : b.terminator = some t)
    (hphis : ∀ inst ∈ phis, inst.isPhi = true) (hcode : Code c code c')
    (hnodup : (dsts (phis ++ code)).Nodup) (hsize : c'.types.size ≤ fr.values.size)
    (hbound : ∀ v ∈ dsts phis, v.index < fr.values.size)
    (hinputs : ∀ inst ∈ phis, ∃ p v, pred = some p ∧ inst.input? p = some v) :
    ∃ fr', runBlock f fr pred id = .ok (fr', endBlock fr' t) ∧ fr'.values.size = fr.values.size ∧
      (∀ v, v ∉ dsts (phis ++ code) → fr'.get v = fr.get v) ∧
      (∀ inst ∈ phis, ∀ dst p v, inst.dst? = some dst → pred = some p → inst.input? p = some v →
        fr'.get dst = fr.get v) ∧
      Sat f fr'.get code fr.machine fr'.machine := by
  -- The phis are what comes before the first instruction that is none.
  have hfront : b.phis = phis := by
    rw [Block.phis, hinsts, List.takeWhile_append_of_pos hphis]
    cases code with
    | nil => simp
    | cons inst code => simp [hcode.not_phi inst List.mem_cons_self]
  have hbody : b.body = code := by
    have heq := b.insts_eq
    rw [hinsts, hfront] at heq
    exact (List.append_cancel_left heq).symm
  rw [dsts_append, List.nodup_append] at hnodup
  obtain ⟨hnodup, -, hapart⟩ := hnodup
  obtain ⟨fr₁, henter, hmachine₁, hsize₁, hget₁, hkeep₁⟩ := enterBlock_spec fr (b := b)
    (hfront ▸ hphis) (hfront ▸ hnodup) (hfront ▸ hbound) (hfront ▸ hinputs)
  obtain ⟨fr₂, hrun, hsize₂, hkeep₂, hsat⟩ := hcode.run (f := f) fr₁ (hsize₁ ▸ hsize)
  have hold : ∀ v, v ∉ dsts code → fr₂.get v = fr₁.get v := fun v hv =>
    hkeep₂ v fun inst hi hd => hv (mem_dsts.2 ⟨inst, hi, hd⟩)
  refine ⟨fr₂, ?_, hsize₂.trans hsize₁, fun v hv => ?_, fun inst hi dst p v hdst hp hv => ?_, ?_⟩
  · simp only [runBlock, hb, hterm, henter, hbody]
    change (code.foldlM (stepInst f) fr₁ >>= _) = _
    rw [hrun]
    rfl
  · rw [dsts_append, List.mem_append, not_or] at hv
    rw [hold v hv.2, hkeep₁ v (hfront ▸ hv.1)]
  · have hmem : dst ∈ dsts phis := mem_dsts.2 ⟨inst, hi, hdst⟩
    rw [hold dst fun hd => hapart dst hmem dst hd rfl]
    exact hget₁ inst (hfront ▸ hi) dst p v hdst hp hv
  · rw [← hmachine₁]
    exact hsat

/-! ## Fuel -/

section

variable {σ : Type} [GuestMachine σ] {fr : Frame σ} {pred : Option BlockId} {e : Exit} {m : σ}
  {fuel fuel' : Nat}

/-- The run goes on after block `id`. -/
def resume (f : Function) (fuel : Nat) (fr : Frame σ) (id : BlockId) : Next → Outcome σ
  | .exit e => .exited e fr.machine
  | .block next => runFrom f fuel fr (some id) next

theorem runFrom_succ {fr' : Frame σ} {next : Next} (h : runBlock f fr pred id = .ok (fr', next))
    (fuel : Nat) : runFrom f (fuel + 1) fr pred id = resume f fuel fr' id next := by
  rw [runFrom, h]
  cases next <;> rfl

/-- A run that exits does so with more fuel. -/
theorem runFrom_mono (h : runFrom f fuel fr pred id = .exited e m) (hle : fuel ≤ fuel') :
    runFrom f fuel' fr pred id = .exited e m := by
  induction fuel generalizing fr pred id fuel' with
  | zero => cases h
  | succ fuel ih =>
    obtain ⟨fuel', rfl⟩ : ∃ n, fuel' = n + 1 := ⟨fuel' - 1, by omega⟩
    unfold runFrom at h ⊢
    split at h
    · cases h
    · exact h
    · exact ih h (by omega)

end

end HotRegion.Ssa
