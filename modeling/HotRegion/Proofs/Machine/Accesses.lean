import HotRegion.Proofs.Machine.Stores
import HotRegion.Proofs.Region.Effect

/-!
# What a block does with memory

Code is data: a block fetches the words of its instructions from memory, and its stores may go to
the same place. The accesses of a block list what it does in order. As long as no store is over a
word that was fetched before, memory holds the words of the block also when it is done.

## Key results

- `step_accesses`: what the accesses of a block say of the memory after it
- `fetched_step`: the words that are fetched are those of the trace
- `Reaches.reg_zero`: no block changes `$0`
-/

namespace HotRegion.Machine

open Isa

/-- Something that the machine does with memory, or at an address of it. -/
inductive Access where
  /-- The instruction word at the address is fetched. -/
  | fetch (addr : UInt32)
  /-- The instruction at the address is executed. -/
  | execute (addr : UInt32)
  | store (store : Store)
  deriving DecidableEq

/-- The second access is not a store over a word that the first one fetched. -/
def Access.Spares (m : Memory) : Access → Access → Prop
  | .fetch addr, .store write => ¬ m.Overlaps write addr
  | _, _ => True

instance (m : Memory) : DecidableRel (Access.Spares m)
  | .fetch addr, .store write => inferInstanceAs (Decidable (¬ m.Overlaps write addr))
  | .fetch _, .fetch _ | .fetch _, .execute _ | .execute _, _ | .store _, _ =>
    inferInstanceAs (Decidable True)

/-- What an access spares depends on the size of memory alone. -/
theorem Access.spares_congr {m m' : Memory} (h : m'.size = m.size) :
    Access.Spares m' = Access.Spares m := by
  funext a b
  cases a with
  | fetch addr =>
    cases b with
    | store write => exact propext (not_congr (Memory.overlaps_congr h write addr))
    | _ => rfl
  | _ => rfl

/-! ## Accesses of a block -/

/-- The stores of an instruction. -/
def State.stores (s : State) : Instr → List Store
  | .store op _ base offset => [(s.effectiveAddr base offset, State.storeWidth op)]
  | .fpStore .single _ base offset => [(s.effectiveAddr base offset, .word)]
  | .fpStore .double _ base offset => [(s.effectiveAddr base offset, .double)]
  | _ => []

/-- An instruction at `addr` is executed. -/
def State.running (s : State) (addr : UInt32) (insn : Instr) : List Access :=
  .execute addr :: (s.stores insn).map .store

/-- The accesses of the control transfer `word` at the program counter and its delay slot. -/
def transferAccesses (s : State) (word : UInt32) : List Access :=
  .fetch s.pc :: .execute s.pc :: .fetch (s.pc + 4) ::
    if (decode word).isLikelyBranch && !s.taken (decode word) then []
    else (s.inSlot word).running (s.pc + 4) (decode (s.mem.readWord (s.pc + 4)))

/-- The accesses of at most `limit` instructions, or fewer and a control transfer. -/
def wordsAccesses : Nat → State → List Access
  | 0, _ => []
  | limit + 1, s =>
    let word := s.mem.readWord s.pc
    let insn := decode word
    if insn.hasDelaySlot then transferAccesses s word
    else
      .fetch s.pc :: s.running s.pc insn ++
        match Machine.execute s s.pc insn with
        | .error _ => []
        | .ok s' => wordsAccesses limit { s'.retire with pc := s.pc + 4 }

/-- The accesses of the block at the program counter. -/
def accesses (limit : Nat) (s : State) : List Access := wordsAccesses (max limit 1) s

variable {s s' t : State} {addr a : UInt32} {insn : Instr} {limit : Nat} {words : List UInt32}
  {m m' m'' : Memory} {log log' : List Access}

/-! ## Words that are kept -/

/-- The stores of a log leave alone every word that they do not overlap. -/
structure Kept (m : Memory) (log : List Access) (m' : Memory) : Prop where
  size : m'.size = m.size
  word : ∀ addr, (∀ store, .store store ∈ log → ¬ m.Overlaps store addr) →
    m'.readWord addr = m.readWord addr

/-- Memory is kept where nothing is done. -/
theorem Kept.refl (m : Memory) (log : List Access) : Kept m log m := ⟨rfl, fun _ _ => rfl⟩

/-- What is kept in two steps is kept. -/
theorem Kept.trans (h : Kept m log m') (h' : Kept m' log' m'') : Kept m (log ++ log') m'' where
  size := h'.size.trans h.size
  word addr hmiss := by
    rw [h'.word addr fun store hs => ?_, h.word addr fun store hs => hmiss store (by simp [hs])]
    rw [Memory.overlaps_congr h.size]
    exact hmiss store (by simp [hs])

/-- More stores keep less. -/
theorem Kept.mono (h : Kept m log m') (hsub : ∀ store, .store store ∈ log → .store store ∈ log') :
    Kept m log' m' :=
  ⟨h.size, fun addr hmiss => h.word addr fun store hs => hmiss store (hsub store hs)⟩

/-- An instruction leaves alone what its store does not overlap. -/
theorem kept_execute (h : execute s addr insn = .ok t) : Kept s.mem (s.running a insn) t.mem := by
  have hwrite : ∀ (dst : UInt32) (width : Width) (v : UInt64),
      s.stores insn = [(dst, width)] → Kept s.mem (s.running a insn) (s.mem.write dst width v) := by
    intro dst width v hstores
    refine ⟨Memory.size_write .., fun addr hmiss => Memory.readWord_write (hmiss _ ?_)⟩
    simp [State.running, hstores]
  have hsame : t.mem = s.mem → Kept s.mem (s.running a insn) t.mem := fun hmem => hmem ▸ .refl _ _
  -- Only stores write to memory, and each of them writes where it says.
  cases insn with
  | store op rt base offset =>
    cases h
    exact hwrite _ _ _ rfl
  | fpStore fmt ft base offset =>
    cases fmt <;> cases h
    · exact hwrite _ _ _ rfl
    · exact hwrite _ _ _ rfl
  | shift | unary | loadUpper | load | moveFromFpu | moveFromFcr =>
    cases h
    exact hsame (State.mem_setReg ..)
  | alu | imm =>
    simp only [execute] at h
    split at h <;> cases h
    exact hsame (State.mem_setReg ..)
  | hiLoMove move =>
    cases move <;> cases h
    · exact hsame (State.mem_setReg ..)
    · exact hsame (State.mem_setReg ..)
    · exact hsame rfl
    · exact hsame rfl
  | fpAlu _ fmt =>
    cases fmt <;> cases h <;> exact hsame rfl
  | fpUnary op =>
    cases h
    refine hsame ?_
    unfold State.fpUnary
    split <;> rfl
  | fpLoad fmt =>
    cases fmt <;> cases h <;> exact hsame rfl
  | trap =>
    simp only [execute] at h
    split at h <;> cases h
    exact hsame rfl
  | syscall | breakpoint | unknown => cases h
  | _ =>
    cases h
    exact hsame rfl

/-! ## Blocks -/

/-- A transfer changes memory where its delay slot stores. -/
theorem kept_stepTransfer {word : UInt32} (h : stepTransfer s word = (.ok words, t)) :
    Kept s.mem (transferAccesses s word) t.mem := by
  obtain ⟨-, -, ⟨-, rfl⟩ | ⟨hruns, s', hx, rfl⟩⟩ := stepTransfer_eq_ok h
  · exact mem_inSlot s word ▸ .refl _ _
  · have hkept : Kept (s.inSlot word).mem _ s'.mem := kept_execute (a := s.pc + 4) hx
    rw [mem_inSlot] at hkept
    refine hkept.mono fun store hs => ?_
    simp only [transferAccesses, hruns, Bool.false_eq_true, if_false]
    exact List.mem_cons_of_mem _ (List.mem_cons_of_mem _ (List.mem_cons_of_mem _ hs))

/-- A block changes memory where its instructions store. -/
theorem kept_stepWords (h : stepWords limit s = (.ok words, t)) :
    Kept s.mem (wordsAccesses limit s) t.mem := by
  induction limit generalizing s words with
  | zero =>
    cases h
    exact .refl _ _
  | succ limit ih =>
    unfold wordsAccesses
    obtain ⟨hdelay, h⟩ | ⟨hdelay, s', rest, hx, hrest, -⟩ := stepWords_succ_eq_ok h
    · simp only [hdelay, if_true]
      exact kept_stepTransfer h
    · simp only [hdelay, Bool.false_eq_true, if_false, hx]
      refine Kept.trans ?_ (ih hrest)
      exact (kept_execute hx).mono fun store hs => List.mem_cons_of_mem _ hs

/-- The words of a control transfer and its delay slot are fetched and stay in memory. -/
theorem words_stepTransfer (h : stepTransfer s (s.mem.readWord s.pc) = (.ok words, t))
    (hspares : (transferAccesses s (s.mem.readWord s.pc)).Pairwise (Access.Spares s.mem)) {i : Nat}
    {w : UInt32} (hw : words[i]? = some w) :
    .fetch (wordAddr s.pc i) ∈ transferAccesses s (s.mem.readWord s.pc) ∧
      t.mem.readWord (wordAddr s.pc i) = w := by
  have hkept := kept_stepTransfer h
  obtain ⟨rfl, -⟩ := stepTransfer_eq_ok h
  obtain ⟨hfirst, hspares⟩ := List.pairwise_cons.1 hspares
  obtain ⟨-, hspares⟩ := List.pairwise_cons.1 hspares
  obtain ⟨hslot, -⟩ := List.pairwise_cons.1 hspares
  -- No store comes before the fetches.
  have hmiss : ∀ addr, (∀ access ∈ (if (decode (s.mem.readWord s.pc)).isLikelyBranch &&
      !s.taken (decode (s.mem.readWord s.pc)) then [] else (s.inSlot (s.mem.readWord s.pc)).running
        (s.pc + 4) (decode (s.mem.readWord (s.pc + 4)))), Access.Spares s.mem (.fetch addr) access) →
      t.mem.readWord addr = s.mem.readWord addr := by
    intro addr hall
    refine hkept.word addr fun store hs => ?_
    simp only [transferAccesses, List.mem_cons, reduceCtorEq, false_or] at hs
    exact hall _ hs
  rcases i with _ | _ | i
  · cases hw
    rw [wordAddr_zero]
    refine ⟨List.mem_cons_self, hmiss _ fun access ha => hfirst access ?_⟩
    exact List.mem_cons_of_mem _ (List.mem_cons_of_mem _ ha)
  · cases hw
    rw [wordAddr_succ, wordAddr_zero]
    exact ⟨by simp [transferAccesses], hmiss _ hslot⟩
  · cases hw

/-- The words of a block are fetched and stay in memory. -/
theorem words_stepWords (h : stepWords limit s = (.ok words, t))
    (hspares : (wordsAccesses limit s).Pairwise (Access.Spares s.mem)) {i : Nat} {w : UInt32}
    (hw : words[i]? = some w) :
    .fetch (wordAddr s.pc i) ∈ wordsAccesses limit s ∧ t.mem.readWord (wordAddr s.pc i) = w := by
  -- Induction on the words of the step. A word that was fetched is kept by all later stores that
  -- miss it.
  induction limit generalizing s words i with
  | zero =>
    cases h
    cases hw
  | succ limit ih =>
    have hkept := kept_stepWords h
    unfold wordsAccesses at hspares hkept ⊢
    obtain ⟨hdelay, h⟩ | ⟨hdelay, s', rest, hx, hrest, rfl⟩ := stepWords_succ_eq_ok h
    · simp only [hdelay, if_true] at hspares ⊢
      exact words_stepTransfer h hspares hw
    · simp only [hdelay, Bool.false_eq_true, if_false, hx] at hspares hkept ⊢
      cases i with
      | zero =>
        cases hw
        rw [wordAddr_zero]
        refine ⟨List.mem_cons_self, hkept.word _ fun store hs => ?_⟩
        obtain hs | hs := List.mem_cons.1 hs
        · cases hs
        · exact (List.pairwise_cons.1 hspares).1 _ hs
      | succ i =>
        have hsize : s'.mem.size = s.mem.size := (kept_execute (a := s.pc) hx).size
        have hrests := (List.pairwise_append.1 hspares).2.1
        rw [← Access.spares_congr hsize] at hrests
        obtain ⟨hfetched, hword⟩ := ih hrest hrests hw
        rw [show i + 1 = 1 + i from Nat.add_comm i 1, wordAddr_add, wordAddr_succ, wordAddr_zero]
        exact ⟨List.mem_append_right _ hfetched, hword⟩

/-- The accesses of an instruction that runs are no fetches. -/
theorem fetch_not_mem_running : .fetch addr ∉ s.running a insn := by
  simp [State.running]

/-- Nothing but the words of a block is fetched. -/
theorem fetched_stepWords (h : stepWords limit s = (.ok words, t))
    (ha : .fetch addr ∈ wordsAccesses limit s) :
    ∃ i w, words[i]? = some w ∧ addr = wordAddr s.pc i := by
  induction limit generalizing s words with
  | zero => cases ha
  | succ limit ih =>
    unfold wordsAccesses at ha
    obtain ⟨hdelay, h⟩ | ⟨hdelay, s', rest, hx, hrest, rfl⟩ := stepWords_succ_eq_ok h
    -- With a delay slot both words are fetched, and then there is no fetch any more.
    · simp only [hdelay, if_true, transferAccesses, List.mem_cons, Access.fetch.injEq, reduceCtorEq,
        false_or] at ha
      obtain ⟨rfl, -⟩ := stepTransfer_eq_ok h
      rcases ha with rfl | rfl | ha
      · exact ⟨0, _, rfl, (wordAddr_zero _).symm⟩
      · exact ⟨1, _, rfl, by rw [wordAddr_succ, wordAddr_zero]⟩
      · split at ha
        · cases ha
        · exact absurd ha fetch_not_mem_running
    · simp only [hdelay, Bool.false_eq_true, if_false, hx, List.cons_append, List.mem_cons,
        List.mem_append, Access.fetch.injEq] at ha
      rcases ha with rfl | ha | ha
      · exact ⟨0, _, rfl, (wordAddr_zero _).symm⟩
      · exact absurd ha fetch_not_mem_running
      · obtain ⟨i, w, hw, rfl⟩ := ih hrest ha
        refine ⟨i + 1, w, hw, ?_⟩
        rw [show i + 1 = 1 + i from Nat.add_comm i 1, wordAddr_add, wordAddr_succ, wordAddr_zero]

/-- What a block that does not fault fetches is the code of its trace. -/
theorem fetched_step {trace : Trace} (h : step limit s = (.ok trace, t))
    (ha : .fetch addr ∈ accesses limit s) : ∃ i ∈ (Region.Block.ofTrace trace).code, i.2 = addr := by
  obtain ⟨hentry, hwords⟩ := words_of_step_ok h
  obtain ⟨j, w, hw, rfl⟩ := fetched_stepWords hwords ha
  exact ⟨_, Region.Block.mem_code.2 ⟨j, w, hw, rfl⟩, congrArg (wordAddr · j) hentry⟩

/-- The accesses of a block that does not fault begin with its first instruction, and its stores leave
alone what they do not overlap. If no store is over a word that was fetched before, the words of the
block are in memory when it is done. -/
theorem step_accesses {trace : Trace} (h : step limit s = (.ok trace, t)) :
    .execute s.pc ∈ accesses limit s ∧ Kept s.mem (accesses limit s) t.mem ∧
      ((accesses limit s).Pairwise (Access.Spares s.mem) →
        ∀ i ∈ (Region.Block.ofTrace trace).code,
          .fetch i.2 ∈ accesses limit s ∧ t.mem.readWord i.2 = i.1) := by
  obtain ⟨hentry, hwords⟩ := words_of_step_ok h
  refine ⟨?_, kept_stepWords hwords, fun hspares i hi => ?_⟩
  · obtain ⟨n, hn⟩ : ∃ n, max limit 1 = n + 1 := ⟨max limit 1 - 1, by omega⟩
    rw [accesses, hn, wordsAccesses]
    split <;> simp [transferAccesses, State.running]
  · obtain ⟨j, w, hw, rfl⟩ := Region.Block.mem_code.1 hi
    rw [show (Region.Block.ofTrace trace).entry = s.pc from hentry]
    exact words_stepWords hwords hspares hw

/-! ## The zero register -/

/-- A block leaves `$0` alone. -/
theorem reg_zero_stepWords (h : stepWords limit s = (.ok words, t)) :
    t.reg .zero = s.reg .zero := by
  have hslot : ∀ {s : State} {word : UInt32}, (s.inSlot word).reg .zero = s.reg .zero := fun {s} {word} =>
    UInt32.toUInt64_inj.1 (Region.unit_link s s.pc (untouched_zero (decode word)))
  induction limit generalizing s words with
  | zero =>
    cases h
    rfl
  | succ limit ih =>
    obtain ⟨-, h⟩ | ⟨-, s', rest, hx, hrest, -⟩ := stepWords_succ_eq_ok h
    · obtain ⟨-, -, ⟨-, rfl⟩ | ⟨-, s', hx, rfl⟩⟩ := stepTransfer_eq_ok h
      · exact hslot
      · exact (reg_execute hx (untouched_zero _)).trans hslot
    · have hzero : s'.reg .zero = s.reg .zero := reg_execute hx (untouched_zero _)
      exact (ih hrest).trans hzero

/-- The zero register stays. -/
theorem Reaches.reg_zero {k : Nat} (h : Reaches k s t) : t.reg .zero = s.reg .zero := by
  induction h with
  | refl => rfl
  | head hstep _ ih =>
    obtain ⟨-, hwords⟩ := words_of_step_ok hstep
    exact ih.trans (reg_zero_stepWords hwords)

end HotRegion.Machine
