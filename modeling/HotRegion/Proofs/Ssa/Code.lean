import HotRegion.Ssa.Eval
import HotRegion.Ssa.Validate

/-!
# Straight-line code

Code between two branches defines new values one after the other. `Code` says that it does so in
order, reads only values at hand and keeps the type rules. Then every value is assigned once, so
that in the end all its equations hold at once, whatever came first: `Sat` is this reading of code,
which needs no order but that of the accesses to the machine.

## Key results

- `Code.append`: code after code
- `Code.run`: running code leads to a frame in which its equations hold
-/

namespace HotRegion.Ssa

open Machine (State Loc Width)

/-! ## Watched machines -/

/-- A guest state with the addresses and widths of the stores made so far. -/
structure Watched where
  state : State
  stores : List (UInt32 × Width)

instance : GuestMachine Watched where
  readLoc w := w.state.readLoc
  writeLoc w loc bits := { w with state := w.state.writeLoc loc bits }
  load w addr width := w.state.mem.read addr width
  store w addr width bits :=
    ⟨{ w.state with mem := w.state.mem.write addr width bits }, w.stores ++ [(addr, width)]⟩

/-! ## Equations -/

variable {f : Function} {V : Value → UInt64} {m m' m₁ : Watched} {code rest : List Inst}
  {inst : Inst}

/-- What an instruction other than a phi assigns. -/
def Inst.assigned (f : Function) (V : Value → UInt64) (m : Watched) :
    Inst → Option (Value × UInt64)
  | .const dst bits => some (dst, bits)
  | .binary dst op lhs rhs => some (dst, op.eval (f.ty dst) (V lhs) (V rhs))
  | .unary dst op src => some (dst, op.eval (f.ty dst) (V src))
  | .icmp dst cond lhs rhs => some (dst, (cond.eval (f.ty lhs) (V lhs) (V rhs)).toUInt64)
  | .fcmp dst cond lhs rhs =>
    some (dst, (cond.eval ((f.ty lhs).value (V lhs)) ((f.ty lhs).value (V rhs))).toUInt64)
  | .select dst cond ifTrue ifFalse =>
    some (dst, if V cond &&& 1 == 1 then V ifTrue else V ifFalse)
  | .cast dst op src => some (dst, op.eval (f.ty src) (f.ty dst) (V src))
  | .load dst width signed addr =>
    let raw := m.state.mem.read (V addr).toUInt32 width
    some (dst, (if signed then (signExtend raw width.bits).toUInt64 else raw) &&& (f.ty dst).mask)
  | .readGuest dst loc => some (dst, m.state.readLoc loc &&& (Ty.ofLoc loc).mask)
  | .store .. | .writeGuest .. | .phi .. => none

/-- The value that an instruction defines is the one it computes. -/
def Inst.Holds (f : Function) (V : Value → UInt64) (m : Watched) (inst : Inst) : Prop :=
  match inst.assigned f V m with
  | some (dst, bits) => V dst = bits
  | none => True

/-- The machine after an instruction. -/
def Inst.after (V : Value → UInt64) (m : Watched) : Inst → Watched
  | .store width addr value =>
    GuestMachine.store m (V addr).toUInt32 width (V value &&& widthMask width)
  | .writeGuest loc value => GuestMachine.writeLoc m loc (V value)
  | _ => m

/-- The equations of the code hold, and it takes the machine from `m` to `m'`. -/
def Sat (f : Function) (V : Value → UInt64) : List Inst → Watched → Watched → Prop
  | [], m, m' => m' = m
  | inst :: rest, m, m' => inst.Holds f V m ∧ Sat f V rest (inst.after V m) m'

@[simp] theorem sat_nil : Sat f V [] m m' ↔ m' = m := Iff.rfl

@[simp] theorem sat_cons :
    Sat f V (inst :: rest) m m' ↔ inst.Holds f V m ∧ Sat f V rest (inst.after V m) m' := Iff.rfl

/-- Code after code goes through a machine in between. -/
theorem sat_append :
    Sat f V (code ++ rest) m m' ↔ ∃ m₁, Sat f V code m m₁ ∧ Sat f V rest m₁ m' := by
  induction code generalizing m with
  | nil => simp
  | cons inst code ih =>
    simp only [List.cons_append, sat_cons, ih]
    constructor
    · rintro ⟨h, m₁, h₁, h₂⟩
      exact ⟨m₁, ⟨h, h₁⟩, h₂⟩
    · rintro ⟨m₁, ⟨h, h₁⟩, h₂⟩
      exact ⟨h, m₁, h₁, h₂⟩

/-! ## Values at hand -/

/-- The types of the values made so far, and which of them may be read. -/
structure Context where
  types : Array Ty
  avail : Value → Prop

namespace Context

variable {c c' : Context} {v : Value} {ty ty' : Ty}

/-- The value may be read and has the given type. -/
structure Has (c : Context) (v : Value) (ty : Ty) : Prop where
  typed : c.types[v.index]? = some ty
  avail : c.avail v

/-- A value of a context has an entry in its table of types. -/
theorem Has.lt (h : c.Has v ty) : v.index < c.types.size := (Array.getElem?_eq_some_iff.1 h.typed).1

/-- The value that is made next. -/
def next (c : Context) : Value := ⟨c.types.size⟩

/-- The context with one more value. -/
def push (c : Context) (ty : Ty) : Context := ⟨c.types.push ty, fun v => c.avail v ∨ v = c.next⟩

/-- All that is at hand in `c` is at hand in `c'`. -/
structure Le (c c' : Context) : Prop where
  types : ∀ (i : Nat) (ty : Ty), c.types[i]? = some ty → c'.types[i]? = some ty
  avail : ∀ v, c.avail v → c'.avail v

/-- A context contains itself. -/
theorem Le.refl (c : Context) : Le c c := ⟨fun _ _ h => h, fun _ h => h⟩

/-- A context contains what is contained in one that it contains. -/
theorem Le.trans {c'' : Context} (h : Le c c') (h' : Le c' c'') : Le c c'' :=
  ⟨fun i ty hi => h'.types i ty (h.types i ty hi), fun v hv => h'.avail v (h.avail v hv)⟩

/-- A value is there in every later context, with its type. -/
theorem Has.mono (h : c.Has v ty) (hle : Le c c') : c'.Has v ty :=
  ⟨hle.types _ _ h.typed, hle.avail _ h.avail⟩

/-- Types are only added. -/
theorem Le.size_le (h : Le c c') : c.types.size ≤ c'.types.size := by
  refine Nat.le_of_not_lt fun hlt => ?_
  have hlast := h.types c'.types.size _ (Array.getElem?_eq_getElem hlt)
  exact Nat.lt_irrefl _ (Array.getElem?_eq_some_iff.1 hlast).1

/-- The next value takes nothing from the others. -/
theorem le_push (c : Context) (ty : Ty) : Le c (c.push ty) := by
  refine ⟨fun i ty' hi => ?_, fun v hv => .inl hv⟩
  have hlt := (Array.getElem?_eq_some_iff.1 hi).1
  rw [push, Array.getElem?_push, if_neg (Nat.ne_of_lt hlt)]
  exact hi

/-- The next value has the type that is pushed for it. -/
theorem has_next (c : Context) (ty : Ty) : (c.push ty).Has c.next ty :=
  ⟨by simp [push, next], .inr rfl⟩

/-- The values of the context have these types in the function. -/
def Fits (c : Context) (f : Function) : Prop :=
  ∀ (i : Nat) (ty : Ty), c.types[i]? = some ty → f.types[i]? = some ty

/-- A function that has all values of a context has those of an earlier one. -/
theorem Fits.mono (h : c'.Fits f) (hle : Le c c') : c.Fits f := fun i ty hi => h i ty (hle.types i ty hi)

/-- A function gives a value the type that it has in the context. -/
theorem Fits.ty_eq (h : c.Fits f) (hv : c.Has v ty) : f.ty v = ty := by
  simp [Function.ty, h _ _ hv.typed]

/-- The next value has its type in the function. -/
theorem Fits.ty_next (h : (c.push ty).Fits f) : f.ty c.next = ty := h.ty_eq (c.has_next ty)

end Context

/-! ## Code in order -/

open Context (Le)

variable {c c' c'' : Context} {ty : Ty} {v : Value}

/-- What an instruction reads is at hand and has the types it needs; `ty` is the type of the value
it defines, if it defines one. -/
def Inst.Checks (c : Context) (ty : Ty) : Inst → Prop
  | .const .. => True
  | .binary _ op lhs rhs => c.Has lhs ty ∧ c.Has rhs ty ∧ op.isFloat = ty.isFloat
  | .unary _ op src => c.Has src ty ∧ op.isFloat = ty.isFloat
  | .icmp _ _ lhs rhs => ty = .i1 ∧ ∃ t, c.Has lhs t ∧ c.Has rhs t ∧ t.isInt = true
  | .fcmp _ _ lhs rhs => ty = .i1 ∧ ∃ t, c.Has lhs t ∧ c.Has rhs t ∧ t.isFloat = true
  | .select _ cond ifTrue ifFalse => c.Has cond .i1 ∧ c.Has ifTrue ty ∧ c.Has ifFalse ty
  | .cast _ op src => ∃ t, c.Has src t ∧ Function.castAllowed op t ty = true
  | .load _ width _ addr => c.Has addr .i32 ∧ ty.isInt = true ∧ width.bits ≤ ty.width
  | .store width addr value =>
    c.Has addr .i32 ∧ ∃ t, c.Has value t ∧ t.isInt = true ∧ width.bits ≤ t.width
  | .readGuest _ loc => ty = .ofLoc loc
  | .writeGuest loc value => c.Has value (.ofLoc loc)
  | .phi .. => False

/-- Code that takes the values at hand from `c` to `c'`: each instruction reads values at hand and
defines the next one, or none. Values that other code makes in between take their numbers. -/
inductive Code : Context → List Inst → Context → Prop where
  | nil (c : Context) : Code c [] c
  | grow {c c₁ c' : Context} {code : List Inst}
      (types : ∀ (i : Nat) (ty : Ty), c.types[i]? = some ty → c₁.types[i]? = some ty)
      (avail : c₁.avail = c.avail) (tail : Code c₁ code c') : Code c code c'
  | define {c c' : Context} {inst : Inst} {rest : List Inst} (ty : Ty)
      (dst : inst.dst? = some c.next) (checks : inst.Checks c ty)
      (tail : Code (c.push ty) rest c') : Code c (inst :: rest) c'
  | effect {c c' : Context} {inst : Inst} {rest : List Inst} (dst : inst.dst? = none)
      (checks : inst.Checks c .i1) (tail : Code c rest c') : Code c (inst :: rest) c'

/-- Code after code is code from the first context to the last. -/
theorem Code.append (h : Code c code c') (h' : Code c' rest c'') : Code c (code ++ rest) c'' := by
  induction h with
  | nil => exact h'
  | grow types avail _ ih => exact .grow types avail (ih h')
  | define ty dst checks _ ih => exact .define ty dst checks (ih h')
  | effect dst checks _ ih => exact .effect dst checks (ih h')

/-- The context after code contains the one before. -/
theorem Code.le (h : Code c code c') : Le c c' := by
  induction h with
  | nil => exact .refl _
  | grow types avail _ ih => exact Le.trans ⟨types, fun v hv => avail ▸ hv⟩ ih
  | define ty _ _ _ ih => exact (Context.le_push _ ty).trans ih
  | effect _ _ _ ih => exact ih

/-- Code adds to the table of types. -/
theorem Code.size_le (h : Code c code c') : c.types.size ≤ c'.types.size := h.le.size_le

/-- An instruction that passes the checks reads only values at hand. -/
theorem Inst.Checks.has (h : inst.Checks c ty) (hv : v ∈ inst.operands) : ∃ t, c.Has v t := by
  cases inst <;> simp only [Inst.operands, List.mem_cons, List.not_mem_nil, or_false] at hv <;>
    simp only [Inst.Checks] at h <;> grind

/-- An instruction that may stand in a context may stand in a later one. -/
theorem Inst.Checks.mono (h : inst.Checks c ty) (hle : Le c c') : inst.Checks c' ty := by
  have hhas : ∀ v t, c.Has v t → c'.Has v t := fun v t hv => hv.mono hle
  cases inst <;> simp only [Inst.Checks] at h ⊢ <;> grind

/-- Code has no phis. -/
theorem Code.not_phi (h : Code c code c') : ∀ inst ∈ code, inst.isPhi = false := by
  have hchecks : ∀ (k : Context) (ty : Ty) (inst : Inst), inst.Checks k ty → inst.isPhi = false := by
    intro k ty inst hinst
    cases inst <;> first | rfl | exact hinst.elim
  induction h with
  | nil => exact fun _ hi => absurd hi List.not_mem_nil
  | grow _ _ _ ih => exact ih
  | define _ _ checks _ ih => exact List.forall_mem_cons.2 ⟨hchecks _ _ _ checks, ih⟩
  | effect _ checks _ ih => exact List.forall_mem_cons.2 ⟨hchecks _ _ _ checks, ih⟩

/-- What is at hand after code was at hand before it or is defined by it. -/
theorem Code.avail_cases (h : Code c code c') (hv : c'.avail v) :
    c.avail v ∨ ∃ inst ∈ code, inst.dst? = some v := by
  induction h with
  | nil => exact .inl hv
  | grow _ avail _ ih =>
    rw [← avail]
    exact ih hv
  | define ty dst _ _ ih =>
    rcases ih hv with (h | rfl) | ⟨inst, hi, hd⟩
    · exact .inl h
    · exact .inr ⟨_, List.mem_cons_self, dst⟩
    · exact .inr ⟨inst, List.mem_cons_of_mem _ hi, hd⟩
  | effect _ _ _ ih =>
    rcases ih hv with h | ⟨inst, hi, hd⟩
    · exact .inl h
    · exact .inr ⟨inst, List.mem_cons_of_mem _ hi, hd⟩

/-- The context with more values at hand. -/
def Context.also (c : Context) (more : Value → Prop) : Context :=
  ⟨c.types, fun v => c.avail v ∨ more v⟩

/-- A context contains itself with fewer values available. -/
theorem Context.le_also (c : Context) (more : Value → Prop) : Le c (c.also more) :=
  ⟨fun _ _ h => h, fun _ h => .inl h⟩

/-- Code is code where more is at hand. -/
theorem Code.weaken (h : Code c code c') (more : Value → Prop) :
    Code (c.also more) code (c'.also more) := by
  induction h with
  | nil => exact .nil _
  | @grow c c₁ _ _ types avail _ ih =>
    refine .grow ?_ ?_ ih
    · exact types
    · simp [Context.also, avail]
  | @define c _ _ _ ty dst checks _ ih =>
    have hpush : (c.push ty).also more = (c.also more).push ty := by
      simp only [Context.also, Context.push, Context.next, Context.mk.injEq, true_and]
      funext v
      exact propext or_right_comm
    exact .define ty dst (checks.mono (c.le_also more)) (hpush ▸ ih)
  | @effect c _ _ _ dst checks _ ih => exact .effect dst (checks.mono (c.le_also more)) ih

/-- Code defines the values between the two contexts. -/
theorem Code.dst_range (h : Code c code c') (hi : inst ∈ code) (hv : inst.dst? = some v) :
    c.types.size ≤ v.index ∧ v.index < c'.types.size := by
  induction h with
  | nil => exact absurd hi List.not_mem_nil
  | grow types avail _ ih =>
    have hsize := Le.size_le ⟨types, fun v hv => avail ▸ hv⟩
    have := ih hi
    omega
  | @define c _ inst' _ ty dst _ rest ih =>
    have hsize := rest.size_le
    simp only [Context.push, Array.size_push] at hsize
    rcases List.mem_cons.1 hi with rfl | hi
    · rw [dst] at hv
      cases hv
      exact ⟨Nat.le_refl _, hsize⟩
    · have := ih hi
      simp only [Context.push, Array.size_push] at this
      omega
  | effect dst _ _ ih =>
    rcases List.mem_cons.1 hi with rfl | hi
    · rw [dst] at hv
      cases hv
    · exact ih hi

/-- The values that instructions define, in order. -/
def dsts (code : List Inst) : List Value := code.filterMap Inst.dst?

@[simp] theorem dsts_nil : dsts [] = [] := rfl

@[simp] theorem dsts_append (code rest : List Inst) : dsts (code ++ rest) = dsts code ++ dsts rest :=
  List.filterMap_append

/-- A value is defined if an instruction has it for its target. -/
theorem mem_dsts : v ∈ dsts code ↔ ∃ inst ∈ code, inst.dst? = some v := List.mem_filterMap

/-- Code defines no value twice. -/
theorem Code.nodup_dsts (h : Code c code c') : (dsts code).Nodup := by
  induction h with
  | nil => exact List.nodup_nil
  | grow _ _ _ ih => exact ih
  | @define c _ inst rest ty dst _ tail ih =>
    rw [dsts, List.filterMap_cons, dst]
    refine List.nodup_cons.2 ⟨fun hmem => ?_, ih⟩
    obtain ⟨inst', hi, hd⟩ := mem_dsts.1 hmem
    have := (tail.dst_range hi hd).1
    simp only [Context.push, Array.size_push, Context.next] at this
    omega
  | effect dst _ _ ih =>
    rw [dsts, List.filterMap_cons, dst]
    exact ih

/-! ## Running code -/

/-- One instruction assigns its value and changes the machine. -/
theorem stepInst_eq (hchecks : inst.Checks c ty) (fr : Frame Watched) :
    stepInst f fr inst = .ok
      { values := match inst.assigned f fr.get fr.machine with
          | some (dst, bits) => fr.values.setIfInBounds dst.index bits
          | none => fr.values
        machine := inst.after fr.get fr.machine } := by
  cases inst with
  | phi => exact absurd hchecks id
  | select dst cond ifTrue ifFalse =>
    have hif : fr.get (if fr.isTrue cond then ifTrue else ifFalse) =
        if fr.get cond &&& 1 == 1 then fr.get ifTrue else fr.get ifFalse := apply_ite fr.get _ _ _
    simp only [stepInst, hif]
    rfl
  | _ => rfl

/-- What an instruction does depends on the values it reads alone. -/
theorem Inst.assigned_congr {V' : Value → UInt64} (h : ∀ v ∈ inst.operands, V v = V' v) :
    inst.assigned f V m = inst.assigned f V' m := by
  cases inst <;> simp only [Inst.operands, List.mem_cons, List.not_mem_nil, or_false,
    forall_eq_or_imp, forall_eq] at h <;> simp only [Inst.assigned, h]

/-- What an instruction does to the machine depends on its operands alone. -/
theorem Inst.after_congr {V' : Value → UInt64} (h : ∀ v ∈ inst.operands, V v = V' v) :
    inst.after V m = inst.after V' m := by
  cases inst <;> simp only [Inst.operands, List.mem_cons, List.not_mem_nil, or_false,
    forall_eq_or_imp, forall_eq] at h <;> simp only [Inst.after, h]

/-- An instruction assigns its target. -/
theorem Inst.assigned_eq_some {p : Value × UInt64} (h : inst.assigned f V m = some p) :
    inst.dst? = some p.1 := by
  cases inst <;> cases h <;> rfl

/-- An instruction with a target assigns it some bits. -/
theorem Inst.assigned_of_dst (hchecks : inst.Checks c ty) (h : inst.dst? = some v) :
    ∃ bits, inst.assigned f V m = some (v, bits) := by
  cases inst <;> cases h
  all_goals first
    | exact ⟨_, rfl⟩
    | exact absurd hchecks id

/-- Running code leads to a frame in which all its equations hold; values that it does not define
stay as they are. -/
theorem Code.run (h : Code c code c') (fr : Frame Watched) (hsize : c'.types.size ≤ fr.values.size) :
    ∃ fr', code.foldlM (stepInst f) fr = .ok fr' ∧ fr'.values.size = fr.values.size ∧
      (∀ v, (∀ inst ∈ code, inst.dst? ≠ some v) → fr'.get v = fr.get v) ∧
      Sat f fr'.get code fr.machine fr'.machine := by
  induction h generalizing fr with
  | nil => exact ⟨fr, rfl, rfl, fun _ _ => rfl, rfl⟩
  | grow _ _ _ ih => exact ih fr hsize
  | @define c c' inst code ty dst checks rest ih =>
    obtain ⟨bits, hassigned⟩ := Inst.assigned_of_dst (f := f) (V := fr.get) (m := fr.machine)
      checks dst
    have hstep := stepInst_eq (f := f) checks fr
    rw [hassigned] at hstep
    let fr₁ : Frame Watched := ⟨fr.values.setIfInBounds c.next.index bits,
      inst.after fr.get fr.machine⟩
    have hsize₁ : c'.types.size ≤ fr₁.values.size := by simpa [fr₁] using hsize
    have hpush : (c.push ty).types.size = c.types.size + 1 := by simp [Context.push]
    have hlt : c.next.index < fr.values.size := by
      have := rest.size_le
      simp only [Context.next]
      omega
    have hget₁ : ∀ v : Value, v ≠ c.next → fr₁.get v = fr.get v := by
      intro v hv
      have hidx : c.next.index ≠ v.index := fun h => hv (by cases v; simp_all [Context.next])
      simp [fr₁, Frame.get, hidx]
    obtain ⟨fr', hok, hsize', hkeep, hsat⟩ := ih fr₁ hsize₁
    -- What was made by now is left alone by the rest of the code.
    have hold : ∀ v : Value, v.index < c.types.size + 1 → fr'.get v = fr₁.get v := fun v hv =>
      hkeep v fun i hi hd => by
        have := rest.dst_range hi hd
        omega
    have hops : ∀ v ∈ inst.operands, fr'.get v = fr.get v := by
      intro v hv
      obtain ⟨t, ht⟩ := checks.has hv
      have hvlt := ht.lt
      rw [hold v (by omega), hget₁ v]
      rintro rfl
      exact Nat.lt_irrefl _ hvlt
    refine ⟨fr', ?_, ?_, fun v hv => ?_, ?_, ?_⟩
    · rw [List.foldlM_cons, hstep]
      exact hok
    · rw [hsize']
      simp [fr₁]
    · rw [hkeep v fun i hi => hv i (List.mem_cons_of_mem _ hi), hget₁ v]
      rintro rfl
      exact hv inst List.mem_cons_self dst
    · have hnext : fr'.get c.next = bits := by
        rw [hold c.next (by simp [Context.next])]
        simp [fr₁, Frame.get, hlt]
      unfold Inst.Holds
      rw [Inst.assigned_congr hops, hassigned]
      exact hnext
    · rw [Inst.after_congr hops]
      exact hsat
  | @effect c c' inst code dst checks rest ih =>
    have hnone : inst.assigned f fr.get fr.machine = none := by
      cases hcase : inst.assigned f fr.get fr.machine with
      | none => rfl
      | some p =>
        rw [Inst.assigned_eq_some hcase] at dst
        cases dst
    have hstep := stepInst_eq (f := f) checks fr
    rw [hnone] at hstep
    obtain ⟨fr', hok, hsize', hkeep, hsat⟩ := ih ⟨fr.values, inst.after fr.get fr.machine⟩ hsize
    have hops : ∀ v ∈ inst.operands, fr'.get v = fr.get v := by
      intro v hv
      obtain ⟨t, ht⟩ := checks.has hv
      have hvlt := ht.lt
      exact hkeep v fun i hi hd => by
        have := rest.dst_range hi hd
        omega
    refine ⟨fr', ?_, hsize', fun v hv => hkeep v fun i hi => hv i (List.mem_cons_of_mem _ hi),
      ?_, ?_⟩
    · rw [List.foldlM_cons, hstep]
      exact hok
    · unfold Inst.Holds
      rw [Inst.assigned_congr hops, hnone]
      trivial
    · rw [Inst.after_congr hops]
      exact hsat

end HotRegion.Ssa
