import HotRegion.Proofs.Lowering.Simulation
import HotRegion.Proofs.Lowering.Slots
import Mathlib.Data.List.Forall2

/-!
# Sequences of accesses to floating-point registers

One sequence of reads and writes, at any widths and of any registers, can be run on a register
table, on slots and on the guest state. A written value is one of the values at hand, to which every
read adds its result.

The table refines the register file of the guest: if each register is written before it is read, the
code that the sequence emits computes for every read the bits that the guest would read. The slots
do what the table does, whatever the sequence.

## Key results

- `yields_op`, `yields_ops`: one access, and a sequence of them, on table and guest state alike
- `run_slots`: a sequence on slots
- `RegTable.refines_fprs`: the code for a sequence, run on a frame of values
-/

namespace HotRegion.Lowering

open Isa Analysis Ssa
open Machine (State)
open Region (Tracked)

/-! ## Accesses -/

/-- At which width a register is accessed. -/
inductive FprAccess where
  | bits
  | single
  | double
  /-- In the form that the register has at the boundaries of a region. -/
  | boundary (fp : FpTouched)

/-- One access. The operand of a write is a position in the list of values at hand; the result of a
read goes to the end of that list. -/
inductive FprOp where
  | read (how : FprAccess) (r : Fpr)
  | write (how : FprAccess) (r : Fpr) (operand : Nat)

/-- A file of floating-point registers with values of type `ν`. -/
structure FprFile (m : Type → Type) (σ ν : Type) where
  read : σ → FprAccess → Fpr → m ν
  write : σ → FprAccess → Fpr → ν → m σ

namespace FprFile

variable {m : Type → Type} [Monad m] {σ ν : Type} [Inhabited ν]

/-- One access, from a file and the values at hand to those after it. -/
def step (file : FprFile m σ ν) (s : σ × List ν) : FprOp → m (σ × List ν)
  | .read how r => do return (s.1, s.2 ++ [← file.read s.1 how r])
  | .write how r operand => do return (← file.write s.1 how r (s.2.getD operand default), s.2)

/-- A sequence of accesses. -/
def run (file : FprFile m σ ν) (ops : List FprOp) (s : σ × List ν) : m (σ × List ν) :=
  ops.foldlM file.step s

end FprFile

/-- The registers of a table. -/
def RegTable.file : FprFile Emit RegTable Value where
  read t how r := match how with
    | .bits => t.readBits r
    | .single => t.readSingle r
    | .double => t.readDouble r
    | .boundary fp => t.get fp (.fpr r)
  write t how r v := match how with
    | .bits => t.writeBits r v
    | .single => t.writeSingle r v
    | .double => return t.writeDouble r v
    | .boundary fp => t.set fp (.fpr r) v

/-- The registers in slots. -/
def FprSlots.file : FprFile SlotEmit FprSlots Value where
  read s how r := match how with
    | .bits => s.readBits r
    | .single => s.readSingle r
    | .double => s.readDouble r
    | .boundary fp => s.getTracked fp r
  write s how r v := match how with
    | .bits => s.writeBits r v
    | .single => s.writeSingle r v
    | .double => return s.writeDouble r v
    | .boundary fp => s.setTracked fp r v

/-- The form in which an access sees a register. -/
def FprAccess.form (how : FprAccess) (r : Fpr) : FprForm :=
  match how with
  | bits => .bits
  | single => .single
  | double => .double
  | boundary fp => fp.form r

/-- The registers of the guest. A double is both words of a pair, anything else one word. -/
def guestFile : FprFile Id State UInt64 where
  read g how r := match how.form r with
    | .double => g.pairBits r
    | .single | .bits | .covered => (g.fprBits r).toUInt64
  write g how r x := match how.form r with
    | .double => g.setPairBits r x
    | .single | .bits | .covered => g.setFprBits r x.toUInt32

/-! ## Sequences that can be run -/

/-- The type of a register in a form. -/
def formTy : FprForm → Ty
  | .single => .f32
  | .double => .f64
  | .bits | .covered => .i32

/-- The registers whose words an access covers. -/
def FprAccess.words (how : FprAccess) (r : Fpr) : List Fpr :=
  if how.form r = .double then [r.base, r.base.partner] else [r]

/-- What is known at one point of a sequence: the types of the values at hand, and which registers
have been written. -/
structure FprKnown where
  tys : List Ty
  written : List Fpr

/-- What is read was written before. What is written has the type for it. -/
def FprOp.Allowed (k : FprKnown) : FprOp → Prop
  | read how r => ∀ w ∈ how.words r, w ∈ k.written
  | write how r operand => k.tys[operand]? = some (formTy (how.form r))

/-- What is known after an access. -/
def FprOp.known (k : FprKnown) : FprOp → FprKnown
  | read how r => { k with tys := k.tys ++ [formTy (how.form r)] }
  | write how r _ => { k with written := how.words r ++ k.written }

/-- Every access of a sequence is allowed where it stands. -/
def OpsAllowed (k : FprKnown) : List FprOp → Prop
  | [] => True
  | op :: ops => op.Allowed k ∧ OpsAllowed (op.known k) ops

instance (k : FprKnown) (op : FprOp) : Decidable (op.Allowed k) :=
  match op with
  | .read how r => inferInstanceAs (Decidable (∀ w ∈ how.words r, w ∈ k.written))
  | .write how r operand =>
    inferInstanceAs (Decidable (k.tys[operand]? = some (formTy (how.form r))))

instance decidableOpsAllowed (k : FprKnown) : (ops : List FprOp) → Decidable (OpsAllowed k ops)
  | [] => .isTrue trivial
  | op :: ops =>
    have := decidableOpsAllowed (op.known k) ops
    inferInstanceAs (Decidable (_ ∧ _))

/-! ## One access -/

/-- The bits may be those of a value of the type. -/
def InRange (x : UInt64) (ty : Ty) : Prop := x &&& ty.mask = x

variable {s : Site} {t : RegTable} {vals : List Value} {k : FprKnown} {how : FprAccess} {r : Fpr}
  {op : FprOp} {ops : List FprOp} {V : Value → UInt64} {g : State} {v : Value}

/-- Bits of the width of a word are a word. -/
theorem InRange.word {x : UInt64} (h : InRange x .i32) : x = x.toUInt32.toUInt64 := by
  rw [← and_i32]
  exact h.symm

/-- A word fits its type. -/
theorem inRange_word (x : UInt32) : InRange x.toUInt64 .i32 := by
  rw [InRange, and_mask32 _ rfl]
  simp

/-- An access to a table depends on the form alone. -/
theorem read_table (t : RegTable) (how : FprAccess) (r : Fpr) :
    RegTable.file.read t how r = match how.form r with
      | .single => t.readSingle r
      | .double => t.readDouble r
      | .bits | .covered => t.readBits r := by
  cases how <;> rfl

/-- Writing a register in the form that the access has for it. -/
theorem write_table (t : RegTable) (how : FprAccess) (r : Fpr) (v : Value) :
    RegTable.file.write t how r v = match how.form r with
      | .single => t.writeSingle r v
      | .double => pure (t.writeDouble r v)
      | .bits | .covered => t.writeBits r v := by
  cases how <;> rfl

/-- A read from a table that has the registers. -/
theorem gives_read (ht : t.Typed s) (h : ∀ w ∈ how.words r, t.Loaded (.fpr w)) :
    Gives s (RegTable.file.read t how r) (formTy (how.form r)) fun V _ y =>
      ∀ g : State, t.Agrees V g → y = (guestFile.read g how r).run := by
  rw [read_table]
  unfold FprAccess.words at h
  simp only [guestFile]
  cases hform : how.form r with
  | double =>
    rw [hform, if_pos rfl] at h
    exact RegTable.gives_readDouble ht (h _ (by simp)) (h _ (by simp))
  | single =>
    rw [hform, if_neg (by simp)] at h
    exact RegTable.gives_readSingle ht (h _ (by simp))
  | bits | covered =>
    rw [hform, if_neg (by simp)] at h
    exact RegTable.gives_readBits ht (h _ (by simp))

/-- A write to table and guest state alike. -/
theorem yields_write (ht : t.Typed s) (hv : s.Has v (formTy (how.form r))) :
    Yields s (RegTable.file.write t how r v)
      (fun t' s' => t.Keeps t' s' ∧ ∀ w ∈ how.words r, t'.Loaded (.fpr w))
      fun t' V m m' => m' = m ∧ ∀ g : State, t.Agrees V g →
        InRange (V v) (formTy (how.form r)) → t'.Agrees V (guestFile.write g how r (V v)).run := by
  rw [write_table]
  unfold FprAccess.words
  simp only [guestFile]
  cases hform : how.form r with
  | double =>
    rw [hform] at hv
    rw [if_pos rfl]
    refine Yields.pure ⟨RegTable.keeps_writeDouble ht hv, fun w hw => ?_⟩ fun V m =>
      ⟨rfl, fun g hg _ => hg.setPairBits r v⟩
    -- Both registers of the pair are loaded then.
    rw [RegTable.Loaded, RegTable.bits?_writeDouble]
    rcases List.mem_pair.1 hw with rfl | rfl
    · rw [if_neg (by simpa using (Fpr.partner_ne_base r).symm), if_pos rfl]
      rfl
    · rw [if_pos rfl]
      rfl
  | single =>
    rw [hform] at hv
    rw [if_neg (by simp)]
    refine (RegTable.yields_writeWord (h := .single v) ht hv fun _ => rfl).imp
      (fun _ _ _ h => ⟨h.1, by simpa using h.2⟩) ?_
    rintro t' V m m' ⟨hm, hset⟩
    exact ⟨hm, fun g hg hx => hset g _ hg (InRange.word hx)⟩
  | bits | covered =>
    rw [hform] at hv
    rw [if_neg (by simp)]
    refine (RegTable.yields_writeWord (h := .bits v) ht hv fun _ => rfl).imp
      (fun _ _ _ h => ⟨h.1, by simpa using h.2⟩) ?_
    rintro t' V m m' ⟨hm, hset⟩
    exact ⟨hm, fun g hg hx => hset g _ hg (InRange.word hx)⟩

/-- What the guest reads has the range of its type. -/
theorem inRange_read (g : State) (how : FprAccess) (r : Fpr) :
    InRange (guestFile.read g how r).run (formTy (how.form r)) := by
  simp only [guestFile]
  cases how.form r with
  | double => exact and_mask64 _ rfl
  | single | bits | covered => exact inRange_word _

/-- Related lists have related elements. -/
theorem rel_getD {α β : Type} {R : α → β → Prop} {l : List α} {l' : List β} {b : β}
    (h : List.Forall₂ R l l') (d : α) {i : Nat} (hi : l'[i]? = some b) : R (l.getD i d) b := by
  induction h generalizing i with
  | nil => cases hi
  | cons hab _ ih =>
    cases i with
    | zero =>
      cases hi
      exact hab
    | succ i => exact ih hi

/-- At one point of a sequence the table and the values at hand are as known. -/
structure Ready (k : FprKnown) (t : RegTable) (vals : List Value) (s : Site) : Prop where
  typed : t.Typed s
  written : ∀ r ∈ k.written, t.Loaded (.fpr r)
  vals : List.Forall₂ (fun v ty => s.Has v ty) vals k.tys

/-- There the guest has what the table says, and the bits beside it are those of the values at
hand. -/
structure Mirrors (k : FprKnown) (t : RegTable) (vals : List Value) (V : Value → UInt64)
    (p : State × List UInt64) : Prop where
  agrees : t.Agrees V p.1
  vals : vals.map V = p.2
  range : List.Forall₂ InRange p.2 k.tys

/-- One access on table and guest state alike. -/
theorem yields_op (h : Ready k t vals s) (hop : op.Allowed k) :
    Yields s (RegTable.file.step (t, vals) op) (fun p s' => Ready (op.known k) p.1 p.2 s')
      fun p V m m' => m' = m ∧ ∀ q, Mirrors k t vals V q →
        Mirrors (op.known k) p.1 p.2 V (guestFile.step q op).run := by
  -- A read adds a value to those at hand, and a write none.
  cases op with
  | read how r =>
    refine Gives.bind (gives_read h.typed fun w hw => h.written w (hop w hw)) fun v s₁ hle hv => ?_
    refine Yields.pure ⟨h.typed.mono hle, h.written, ?_⟩ fun V m hread => ⟨rfl, fun q hq => ?_⟩
    · exact List.rel_append (h.vals.imp fun _ _ hv => hv.mono hle) (.cons hv .nil)
    · refine ⟨hq.agrees, ?_, ?_⟩
      · change (vals ++ [v]).map V = q.2 ++ [(guestFile.read q.1 how r).run]
        rw [List.map_append, hq.vals, ← hread q.1 hq.agrees]
        rfl
      · exact List.rel_append hq.range (.cons (inRange_read q.1 how r) .nil)
  | write how r operand =>
    have hv : s.Has (vals.getD operand default) (formTy (how.form r)) := rel_getD h.vals _ hop
    refine Yields.bind (yields_write h.typed hv) fun t₁ s₁ hle ⟨hkeeps, hwords⟩ => ?_
    refine Yields.pure ⟨hkeeps.typed, fun w hw => ?_, h.vals.imp fun _ _ hv => hv.mono hle⟩
      fun V m₁ m hwrite => ⟨hwrite.1, fun q hq => ⟨?_, hq.vals, hq.range⟩⟩
    · -- A write loses no register that was written before.
      rcases List.mem_append.1 hw with hw | hw
      · exact hwords w hw
      · exact hkeeps.loaded _ (h.written w hw)
    · have hlt : operand < vals.length := by
        rw [h.vals.length_eq]
        exact (List.getElem?_eq_some_iff.1 hop).1
      have hoperand : q.2.getD operand default = V (vals.getD operand default) := by
        rw [← hq.vals, List.getD_eq_getElem _ _ (by simpa using hlt), List.getD_eq_getElem _ _ hlt,
          List.getElem_map]
      change t₁.Agrees V (guestFile.write q.1 how r (q.2.getD operand default)).run
      rw [hoperand]
      refine hwrite.2 q.1 hq.agrees ?_
      rw [← hoperand]
      exact rel_getD hq.range _ hop

/-- A sequence of accesses on table and guest state alike. -/
theorem yields_ops (h : Ready k t vals s) (hops : OpsAllowed k ops) :
    Yields s (RegTable.file.run ops (t, vals)) (fun p s' => p.1.Typed s')
      fun p V m m' => m' = m ∧ ∀ q, Mirrors k t vals V q →
        p.2.map V = (guestFile.run ops q).run.2 := by
  induction ops generalizing k t vals s with
  | nil => exact Yields.pure h.typed fun V m => ⟨rfl, fun q hq => hq.vals⟩
  | cons op ops ih =>
    refine Yields.bind (yields_op h hops.1) fun p s₁ _ hp => ?_
    refine (ih hp hops.2).imp (fun _ _ _ h => h) ?_
    rintro p' V m₁ m' ⟨hm', hrest⟩ m ⟨hm, hstep⟩
    exact ⟨hm'.trans hm, fun q hq => hrest _ (hstep q hq)⟩

/-! ## Slots -/

/-- One access to the layout of a table. -/
theorem step_slots (t : RegTable) (vals : List Value) (op : FprOp) :
    FprSlots.file.step (t.slots, vals) op =
      onSlots ((fun p => (p.1.slots, p.2)) <$> RegTable.file.step (t, vals) op) := by
  -- In all four ways of access the file looks at the slots alone.
  cases op with
  | read how r =>
    have hread : FprSlots.file.read t.slots how r = onSlots (RegTable.file.read t how r) := by
      simp only [FprSlots.file, RegTable.file]
      cases how with
      | bits => exact readBits_slots t r
      | single => exact readSingle_slots t r
      | double => exact readDouble_slots t r
      | boundary fp => exact getTracked_slots t fp r
    simp only [FprFile.step, hread, map_bind, onSlots_bind]
    rfl
  | write how r operand =>
    have hwrite : ∀ v, FprSlots.file.write t.slots how r v =
        onSlots (RegTable.slots <$> RegTable.file.write t how r v) := by
      intro v
      simp only [FprSlots.file, RegTable.file]
      cases how with
      | bits => exact writeBits_slots t r v
      | single => exact writeSingle_slots t r v
      | double => exact congrArg pure (writeDouble_slots t r v)
      | boundary fp => exact setTracked_slots t fp r v
    simp only [FprFile.step, hwrite, onSlots_map, map_bind, onSlots_bind, bind_map_left]
    rfl

/-- A sequence of accesses to the layout of a table, whether it goes through or not. -/
theorem run_slots (t : RegTable) (vals : List Value) (ops : List FprOp) :
    FprSlots.file.run ops (t.slots, vals) =
      onSlots ((fun p => (p.1.slots, p.2)) <$> RegTable.file.run ops (t, vals)) := by
  induction ops generalizing t vals with
  | nil => rfl
  | cons op ops ih =>
    simp only [FprFile.run, List.foldlM_cons] at ih ⊢
    rw [step_slots, onSlots_map, bind_map_left, map_bind, onSlots_bind]
    exact bind_congr fun p => ih p.1 p.2

/-! ## Runs of the code -/

/-- Of the guest state an access sees the floating-point registers alone. -/
theorem step_congr {g g' : State} (h : g'.fpr = g.fpr) (xs : List UInt64) (op : FprOp) :
    (guestFile.step (g', xs) op).run.1.fpr = (guestFile.step (g, xs) op).run.1.fpr ∧
      (guestFile.step (g', xs) op).run.2 = (guestFile.step (g, xs) op).run.2 := by
  have hword : ∀ r, g'.fprBits r = g.fprBits r := fun r => by rw [State.fprBits, h]; rfl
  have hpair : ∀ r, g'.pairBits r = g.pairBits r := fun r => by simp only [State.pairBits, hword]
  cases op with
  | read how r =>
    simp only [FprFile.step, guestFile]
    refine ⟨h, ?_⟩
    cases how.form r <;> simp only [hword, hpair] <;> rfl
  | write how r operand =>
    simp only [FprFile.step, guestFile]
    refine ⟨?_, rfl⟩
    cases how.form r <;> simp only [State.setPairBits, State.setFprBits, h] <;> rfl

/-- What operations give depends on the floating-point registers alone. -/
theorem run_congr {g g' : State} (h : g'.fpr = g.fpr) (xs : List UInt64) (ops : List FprOp) :
    (guestFile.run ops (g', xs)).run.2 = (guestFile.run ops (g, xs)).run.2 := by
  induction ops generalizing g g' xs with
  | nil => rfl
  | cons op ops ih =>
    obtain ⟨hfpr, hxs⟩ := step_congr h xs op
    simp only [FprFile.run, List.foldlM_cons, Id.run_bind] at ih ⊢
    revert hfpr hxs
    generalize (guestFile.step (g', xs) op).run = p'
    generalize (guestFile.step (g, xs) op).run = p
    obtain ⟨g₁, xs₁⟩ := p
    obtain ⟨g₁', xs₁'⟩ := p'
    rintro hfpr rfl
    exact ih hfpr xs₁'

/-- Operations that are allowed are so up to any point. -/
theorem OpsAllowed.of_prefix {pre : List FprOp} (h : OpsAllowed k ops) (hpre : pre <+: ops) :
    OpsAllowed k pre := by
  induction pre generalizing k ops with
  | nil => trivial
  | cons op pre ih =>
    obtain ⟨rest, rfl⟩ := hpre
    exact ⟨h.1, ih h.2 (List.prefix_append pre rest)⟩

variable {b : Builder} {zero : Value} {tys : List Ty}

/-- A new table is ready for any operations on the values there are. -/
theorem ready_new (hzero : b.function.types[zero.index]? = some .i32)
    (hvals : List.Forall₂ (fun v ty => b.function.types[v.index]? = some ty) vals tys) :
    Ready ⟨tys, []⟩ (.new zero) vals (Site.whole b) where
  typed := typed_new (Site.has_whole.2 hzero)
  written _ hr := absurd hr List.not_mem_nil
  vals := hvals.imp fun _ _ h => Site.has_whole.2 h

/-- A register table refines the floating-point registers of the guest. Take any sequence of
accesses to a table that starts without registers, in which every register is written before it is
read, and every value written has the type for it.

Running the sequence succeeds and adds code to the current block. For every guest state and every
frame in which the values at hand fit their types, running the code succeeds and leaves the machine
alone, and the values of the reads are the bits that the sequence reads from the guest.

The same sequence on slots makes the same code and the same values, so it never meets a high half
without its low half. After every access an odd slot is marked as a high half exactly if its even
partner holds a double, and so it is after the first step of a write that comes next. -/
theorem RegTable.refines_fprs (hzero : b.function.types[zero.index]? = some .i32)
    (hvals : List.Forall₂ (fun v ty => b.function.types[v.index]? = some ty) vals tys)
    (hops : OpsAllowed ⟨tys, []⟩ ops) :
    (∃ t vals' b' code,
      RegTable.file.run ops (.new zero, vals) b = .ok ((t, vals'), b') ∧
      FprSlots.file.run ops (.new, vals) b = .ok ((t.slots, vals'), b') ∧
      b' = appendCode b b'.function.types code ∧
      ∀ (f : Function) (fr : Frame State) (g : State),
        (∀ (i : Nat) (ty : Ty), b'.function.types[i]? = some ty → f.types[i]? = some ty) →
        b'.function.types.size ≤ fr.values.size →
        fr.get zero = 0 → List.Forall₂ (fun v ty => InRange (fr.get v) ty) vals tys →
        ∃ fr', code.foldlM (stepInst f) fr = .ok fr' ∧ fr'.machine = fr.machine ∧
          vals'.map fr'.get = (guestFile.run ops (g, vals.map fr.get)).run.2) ∧
    ∀ pre, pre <+: ops → ∃ p b₁, FprSlots.file.run pre (.new, vals) b = .ok (p, b₁) ∧
      p.1.Paired ∧ ∀ r s b₂, p.1.splitPair r b₁ = .ok (s, b₂) → s.Paired := by
  have hready := ready_new hzero hvals
  -- What goes through on the table goes through on the slots.
  have hslots : ∀ {pre : List FprOp} {t : RegTable} {vals' : List Value} {b' : Builder},
      RegTable.file.run pre (.new zero, vals) b = .ok ((t, vals'), b') →
      FprSlots.file.run pre (.new, vals) b = .ok ((t.slots, vals'), b') := by
    intro pre t vals' b' h
    rw [← slots_new zero, run_slots]
    exact onSlots_map_eq_ok.2 ⟨_, h, rfl⟩
  refine ⟨?_, fun pre hpre => ?_⟩
  · obtain ⟨⟨t, vals'⟩, s', code, hrun, hgrows, -, hsem⟩ := yields_ops hready hops
    refine ⟨t, vals', s'.builder, code, hrun, hslots hrun, hgrows.builder,
      fun f fr g hfits hsize hzero' hrange => ?_⟩
    obtain ⟨fr', hok, -, hkeep, hsat⟩ :=
      hgrows.ordered.run (f := f) ⟨fr.values, ⟨fr.machine, []⟩⟩ hsize
    obtain ⟨hmachine, hreads⟩ := hsem f fr'.get _ fr'.machine hfits hsat
    -- The values at hand before the code are not defined again.
    have hold : ∀ {v : Value} {ty : Ty}, b.function.types[v.index]? = some ty →
        fr'.get v = fr.get v := fun {v ty} hv => hkeep v fun inst hi hd =>
      Nat.not_lt.2 (hgrows.ordered.dst_range hi hd).1 (Array.getElem?_eq_some_iff.1 hv).1
    have hkept : vals.map fr'.get = vals.map fr.get := by
      refine List.map_congr_left fun v hv => ?_
      obtain ⟨i, rfl⟩ := List.mem_iff_get.1 hv
      exact hold (hvals.get i.2 (hvals.length_eq ▸ i.2))
    -- What `$0` holds in the guest makes no difference, so let it be zero as in the table.
    let g₀ : State := { g with gpr := g.gpr.set 0 0 }
    have hfpr : g₀.fpr = g.fpr := rfl
    have hmirrors : Mirrors ⟨tys, []⟩ (.new zero) vals fr'.get (g₀, vals.map fr.get) := by
      refine ⟨agrees_new ((hold hzero).trans hzero') ?_, hkept, List.forall₂_map_left_iff.2 hrange⟩
      exact (get_set g.gpr 0 0 0).trans (if_pos rfl)
    refine ⟨fr'.forget, ?_, congrArg Watched.state hmachine,
      (hreads _ hmirrors).trans (run_congr hfpr _ ops)⟩
    have hforget := foldlM_forget (f := f) ⟨fr.values, ⟨fr.machine, []⟩⟩ code
    rw [hok] at hforget
    exact hforget
  · obtain ⟨⟨t, vals'⟩, s', code, hrun, -⟩ := yields_ops hready (hops.of_prefix hpre)
    have hrun' := hslots hrun
    have hpaired := paired_slots t
    exact ⟨_, _, hrun', hpaired, fun r s b₂ h => hpaired.splitPair h⟩

/-- Overwrites the high half of a double and reads the low half, then the pair. -/
def overwriteHigh : List FprOp :=
  [.write .double (.ofNat 2) 0, .write .single (.ofNat 3) 1, .read .bits (.ofNat 2),
    .read .double (.ofNat 3)]

/-- A function with three values: one for `$0`, a double and a single. -/
def threeValues : Builder :=
  { Builder.new "three values" with
    function := { (Builder.new "three values").function with types := #[.i32, .f64, .f32] } }

/-- The low half is that of the double still, and the pair has the single as its high half. -/
theorem RegTable.refines_fprs_overwriteHigh :
    ∃ (t : RegTable) (vals : List Value) (b : Builder) (code : List Inst),
      RegTable.file.run overwriteHigh (.new ⟨0⟩, [⟨1⟩, ⟨2⟩]) threeValues = .ok ((t, vals), b) ∧
      b = appendCode threeValues b.function.types code ∧
      ∀ (fr : Frame State), b.function.types.size ≤ fr.values.size → fr.get ⟨0⟩ = 0 →
        InRange (fr.get ⟨2⟩) .f32 →
        ∃ fr', code.foldlM (stepInst b.function) fr = .ok fr' ∧
          vals.map fr'.get = [fr.get ⟨1⟩, fr.get ⟨2⟩, (fr.get ⟨1⟩).toUInt32.toUInt64,
            (fr.get ⟨2⟩).toUInt32.toUInt64 <<< 32 ||| (fr.get ⟨1⟩).toUInt32.toUInt64] := by
  have hzero : threeValues.function.types[(⟨0⟩ : Value).index]? = some .i32 := rfl
  have hvals : List.Forall₂ (fun (v : Value) (ty : Ty) =>
      threeValues.function.types[v.index]? = some ty)
      [⟨1⟩, ⟨2⟩] [.f64, .f32] := .cons rfl (.cons rfl .nil)
  have hops : OpsAllowed ⟨[.f64, .f32], []⟩ overwriteHigh := by decide
  obtain ⟨⟨t, vals, b, code, hrun, -, hcode, hsem⟩, -⟩ := RegTable.refines_fprs hzero hvals hops
  refine ⟨t, vals, b, code, hrun, hcode, fun fr hsize hnull hrange => ?_⟩
  obtain ⟨fr', hok, -, hreads⟩ := hsem b.function fr fr.machine (fun _ _ h => h) hsize hnull
    (.cons (and_mask64 _ rfl) (.cons hrange .nil))
  refine ⟨fr', hok, hreads.trans ?_⟩
  -- The guest after both writes: the double is in the pair, and its high half is replaced.
  let g := (fr.machine.setPairBits (.ofNat 2) (fr.get ⟨1⟩)).setFprBits (.ofNat 3)
    (fr.get ⟨2⟩).toUInt32
  change [fr.get ⟨1⟩, fr.get ⟨2⟩, (g.fprBits (.ofNat 2)).toUInt64, g.pairBits (.ofNat 3)] = _
  have hlow : g.fprBits (.ofNat 2) = (fr.get ⟨1⟩).toUInt32 := by
    rw [State.fprBits_setFprBits, if_neg (by decide), State.setPairBits, State.fprBits_setFprBits,
      if_neg (by decide), State.fprBits_setFprBits, if_pos (by decide)]
  have hhigh : g.fprBits (.ofNat 3) = (fr.get ⟨2⟩).toUInt32 := by
    rw [State.fprBits_setFprBits, if_pos rfl]
  have hpair : g.pairBits (.ofNat 3) =
      (g.fprBits (.ofNat 3)).toUInt64 <<< 32 ||| (g.fprBits (.ofNat 2)).toUInt64 := rfl
  rw [hpair, hlow, hhigh]

end HotRegion.Lowering
