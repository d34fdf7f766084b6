import HotRegion.Proofs.Machine.Stores
import HotRegion.Proofs.Ssa.Code

/-!
# Runs on a watched machine

A watched machine lists its stores and otherwise does what the plain guest state does, so that a run
can be followed on either. Every word that the stores of a run miss is kept.

## Key results

- `Sat.le`: code only adds stores, and keeps the words that these miss
- `run_watched`: a run on the plain state is the run on the watched machine
-/

namespace HotRegion.Ssa

open Machine (State Loc Width Store Memory)

variable {m m' m₁ m₂ : Watched} {f : Function} {V : Value → UInt64} {code : List Inst}

/-! ## Stores made later -/

/-- From `m` to `m'` stores were added, and a word that none of these overlaps is kept. -/
def Watched.Le (m m' : Watched) : Prop :=
  ∃ new : List Store, m'.stores = m.stores ++ new ∧ m'.state.mem.size = m.state.mem.size ∧
    ∀ addr, (∀ store ∈ new, ¬ m.state.mem.Overlaps store addr) →
      m'.state.mem.readWord addr = m.state.mem.readWord addr

/-- No access in between. -/
theorem Watched.Le.refl (m : Watched) : m.Le m := ⟨[], by simp, rfl, fun _ _ => rfl⟩

/-- Accesses after accesses. -/
theorem Watched.Le.trans (h : m.Le m₁) (h' : m₁.Le m₂) : m.Le m₂ := by
  obtain ⟨new, hnew, hsize, hkeep⟩ := h
  obtain ⟨new', hnew', hsize', hkeep'⟩ := h'
  refine ⟨new ++ new', by rw [hnew', hnew, List.append_assoc], hsize'.trans hsize,
    fun addr hmiss => ?_⟩
  rw [hkeep' addr fun store hs => ?_, hkeep addr fun store hs => hmiss store (by simp [hs])]
  rw [Memory.overlaps_congr hsize]
  exact hmiss store (by simp [hs])

/-- The stores made by `m` are among those made by `m'`. -/
theorem Watched.Le.mem_stores (h : m.Le m') {store : Store} (hs : store ∈ m.stores) :
    store ∈ m'.stores := by
  obtain ⟨new, hnew, _⟩ := h
  rw [hnew]
  exact List.mem_append_left _ hs

/-- A word that no store up to `m'` overlaps is kept. -/
theorem Watched.Le.readWord (h : m.Le m') {addr : UInt32}
    (hmiss : ∀ store ∈ m'.stores, ¬ m.state.mem.Overlaps store addr) :
    m'.state.mem.readWord addr = m.state.mem.readWord addr := by
  obtain ⟨new, hnew, _, hkeep⟩ := h
  exact hkeep addr fun store hs => hmiss store (by rw [hnew]; exact List.mem_append_right _ hs)

/-- The size of memory does not change. -/
theorem Watched.Le.size (h : m.Le m') : m'.state.mem.size = m.state.mem.size := by
  obtain ⟨_, _, hsize, _⟩ := h
  exact hsize

/-- Writing a location leaves memory alone. -/
theorem mem_writeLoc (s : State) (loc : Loc) (bits : UInt64) : (s.writeLoc loc bits).mem = s.mem := by
  cases loc with
  | gpr n =>
    simp only [State.writeLoc, State.setReg]
    split <;> rfl
  | _ => rfl

/-- An instruction adds its accesses. -/
theorem Inst.le_after (V : Value → UInt64) (m : Watched) (inst : Inst) : m.Le (inst.after V m) := by
  cases inst with
  | store width addr value =>
    refine ⟨[((V addr).toUInt32, width)], rfl, Memory.size_write .., fun a hmiss => ?_⟩
    exact Memory.readWord_write (hmiss _ (by simp))
  | writeGuest loc value =>
    have hmem := mem_writeLoc m.state loc (V value)
    refine ⟨[], by simp [Inst.after, GuestMachine.writeLoc], ?_, fun a _ => ?_⟩
    · exact congrArg Memory.size hmem
    · exact congrArg (Memory.readWord · a) hmem
  | _ => exact .refl m

/-- Code only adds stores, and keeps the words that these miss. -/
theorem Sat.le (h : Sat f V code m m') : m.Le m' := by
  induction code generalizing m with
  | nil =>
    rw [sat_nil.1 h]
    exact .refl m
  | cons inst code ih => exact (Inst.le_after V m inst).trans (ih (sat_cons.1 h).2)

/-! ## Forgetting the stores -/

/-- The frame on the plain state. -/
def Frame.forget (fr : Frame Watched) : Frame State := ⟨fr.values, fr.machine.state⟩

/-- Watching changes no instruction. -/
theorem stepInst_forget (fr : Frame Watched) (inst : Inst) :
    stepInst f fr.forget inst = (stepInst f fr inst).map Frame.forget := by
  cases inst <;> rfl

/-- Watching changes no code. -/
theorem foldlM_forget (fr : Frame Watched) (code : List Inst) :
    code.foldlM (stepInst f) fr.forget = (code.foldlM (stepInst f) fr).map Frame.forget := by
  induction code generalizing fr with
  | nil => rfl
  | cons inst code ih =>
    rw [List.foldlM_cons, List.foldlM_cons, stepInst_forget]
    cases stepInst f fr inst with
    | error e => rfl
    | ok fr' => exact ih fr'

/-- Watching changes no phi. -/
theorem enterBlock_forget (fr : Frame Watched) (pred : Option BlockId) (b : Block) :
    enterBlock fr.forget pred b = (enterBlock fr pred b).map Frame.forget := by
  have hphi : phiValue fr.forget pred = phiValue fr pred := by
    funext inst
    cases inst <;> rfl
  have hset : ∀ (l : List (Value × UInt64)) (fr : Frame Watched),
      l.foldl (fun fr p => fr.set p.1 p.2) fr.forget =
        (l.foldl (fun fr p => fr.set p.1 p.2) fr).forget := by
    intro l
    induction l with
    | nil => exact fun _ => rfl
    | cons p l ih => exact fun fr => ih (fr.set p.1 p.2)
  unfold enterBlock
  rw [hphi]
  cases b.phis.mapM (phiValue fr pred) with
  | error e => rfl
  | ok assignments => exact congrArg Except.ok (hset assignments fr)

/-- Watching changes no block. -/
theorem runBlock_forget (fr : Frame Watched) (pred : Option BlockId) (id : BlockId) :
    runBlock f fr.forget pred id = (runBlock f fr pred id).map fun p => (p.1.forget, p.2) := by
  unfold runBlock
  cases f.block? id with
  | none => rfl
  | some b =>
    simp only [enterBlock_forget]
    cases enterBlock fr pred b with
    | error e => rfl
    | ok fr₁ =>
      simp only [bind, Except.bind, Except.map, foldlM_forget]
      cases b.body.foldlM (stepInst f) fr₁ with
      | error e => rfl
      | ok fr₂ =>
        cases b.terminator with
        | none => rfl
        | some t => cases t <;> rfl

/-- The end of a run on the plain state. -/
def Outcome.forget : Outcome Watched → Outcome State
  | .exited e w => .exited e w.state
  | .stuck cause => .stuck cause
  | .outOfFuel => .outOfFuel

/-- Watching changes no run. -/
theorem runFrom_forget (fuel : Nat) (fr : Frame Watched) (pred : Option BlockId) (id : BlockId) :
    runFrom f fuel fr.forget pred id = (runFrom f fuel fr pred id).forget := by
  induction fuel generalizing fr pred id with
  | zero => rfl
  | succ fuel ih =>
    unfold runFrom
    rw [runBlock_forget]
    cases runBlock f fr pred id with
    | error e => rfl
    | ok p =>
      obtain ⟨fr', next⟩ := p
      cases next with
      | exit e => rfl
      | block id' => exact ih fr' (some id) id'

/-- A run on the plain state is the run on the watched machine. -/
theorem run_watched (fuel : Nat) (s : State) :
    run fuel f s = (run fuel f (⟨s, []⟩ : Watched)).forget :=
  runFrom_forget fuel ⟨Array.replicate f.types.size 0, ⟨s, []⟩⟩ none Function.entry

end HotRegion.Ssa
