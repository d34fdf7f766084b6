import HotRegion.Proofs.Lowering.Block

/-!
# Drafts

What the steps of the walk do to a draft. Of a block only its instructions and its terminator count.
`Grown own d d'` is the frame of a step: it only changes the blocks that it owns, and otherwise adds
blocks, values and edges.

## Key results

- `Grown.trans`: one step after the other
- `Yields.walk`: emitting code in the walk
- `grown_emit`, `grown_terminate`, `grown_declare` and so on: the frame of each step
-/

namespace HotRegion.Lowering

open Ssa Build
open Region (Tracked Slot)

variable {α β : Type} {d d' d₁ d₂ : Draft} {own own' : Nat → Prop} {code : List Inst} {i j : Nat}
  {tys : Array Ty} {A : Value → Prop}

namespace Draft

/-! ## Views of a draft -/

/-- The number of blocks. -/
def size (d : Draft) : Nat := d.builder.function.blocks.size

def types (d : Draft) : Array Ty := d.builder.function.types

/-- The number of the current block. -/
def cur (d : Draft) : Nat := d.builder.current.index

/-- The instructions and the terminator of a block. -/
def view (d : Draft) (i : Nat) : Option (List Inst × Option Terminator) :=
  (d.builder.function.blocks[i]?).map fun b => (b.insts.toList, b.terminator)

/-- The values that a block defines. -/
def dsts (d : Draft) (i : Nat) : List Value :=
  match d.view i with
  | some p => Ssa.dsts p.1
  | none => []

/-- The draft as a site where `A` is at hand. -/
def site (d : Draft) (A : Value → Prop) : Site := ⟨d.builder, A⟩

/-- Every value is defined at most once and has a type, edges come from blocks, and merges are noted
by slot. -/
structure Tidy (d : Draft) : Prop where
  nodup : ∀ i, (d.dsts i).Nodup
  apart : ∀ i j v, v ∈ d.dsts i → v ∈ d.dsts j → i = j
  bound : ∀ i, ∀ v ∈ d.dsts i, v.index < d.types.size
  sources : ∀ e ∈ d.edges.toList, e.source.index < d.size
  sorted : Ascending.Sorted (fun p => p.1) d.phis

/-- There is nothing to see past the last block. -/
theorem view_eq_none (h : d.size ≤ i) : d.view i = none := by
  simp only [size] at h
  simp [view, h]

/-- A block that is seen is one of the function. -/
theorem lt_size {p : List Inst × Option Terminator} (h : d.view i = some p) : i < d.size := by
  refine Nat.lt_of_not_le fun hle => ?_
  rw [view_eq_none hle] at h
  cases h

/-- Every block of the function is seen. -/
theorem exists_view (h : i < d.size) : ∃ p, d.view i = some p := by
  simp only [size] at h
  simp [view, h]

/-- What a block defines is what its code defines. -/
theorem dsts_of_view {p : List Inst × Option Terminator} (h : d.view i = some p) :
    d.dsts i = Ssa.dsts p.1 := by
  simp [dsts, h]

/-! ## Steps -/

/-- The draft with code at the end of the current block. -/
def emit (d : Draft) (tys : Array Ty) (code : List Inst) : Draft :=
  { d with builder := appendCode d.builder tys code }

/-- The draft with an edge from the current block. -/
def note (d : Draft) (target : Slot) (t : RegTable) : Draft :=
  { d with edges := d.edges.push ⟨target, d.builder.current, t⟩ }

/-- The draft with another current block. -/
def goTo (d : Draft) (block : BlockId) : Draft :=
  { d with builder := { d.builder with current := block } }

/-- The draft whose current block ends so. -/
def finish (d : Draft) (term : Terminator) : Draft :=
  { d with builder := (terminate term d.builder).2 }

/-- The draft with a new empty block. -/
def declare (d : Draft) (name : String) : Draft :=
  { d with builder := (declareBlock name d.builder).2 }

/-- The draft with a comment on a block. -/
def annotate (d : Draft) (block : BlockId) (comment : Option String) : Draft :=
  { d with builder := (modifyBlock block (fun b => { b with comment := comment }) d.builder).2 }

@[simp] theorem types_emit : (d.emit tys code).types = tys := rfl
@[simp] theorem cur_emit : (d.emit tys code).cur = d.cur := rfl
@[simp] theorem edges_emit : (d.emit tys code).edges = d.edges := rfl
@[simp] theorem phis_emit : (d.emit tys code).phis = d.phis := rfl
@[simp] theorem sites_emit : (d.emit tys code).builder.phiSites = d.builder.phiSites := rfl

/-- Code goes into a block that is there, so their number stays. -/
@[simp] theorem size_emit : (d.emit tys code).size = d.size := by
  simp [emit, size, appendCode]

/-- New code is seen at the end of the current block alone. -/
theorem view_emit (d : Draft) (tys : Array Ty) (code : List Inst) (i : Nat) :
    (d.emit tys code).view i =
      if i = d.cur then (d.view i).map fun p => (p.1 ++ code, p.2) else d.view i := by
  change (((d.builder.function.blocks.modify d.cur fun b =>
    { b with insts := b.insts ++ code.toArray })[i]?).map fun b => (b.insts.toList, b.terminator)) = _
  rw [Array.getElem?_modify]
  by_cases h : i = d.cur
  · rw [if_pos h.symm, if_pos h]
    simp [view, Function.comp_def]
  · rw [if_neg (Ne.symm h), if_neg h]
    rfl

@[simp] theorem types_note (y : Slot) (t : RegTable) : (d.note y t).types = d.types := rfl
@[simp] theorem cur_note (y : Slot) (t : RegTable) : (d.note y t).cur = d.cur := rfl
@[simp] theorem size_note (y : Slot) (t : RegTable) : (d.note y t).size = d.size := rfl
@[simp] theorem view_note (y : Slot) (t : RegTable) (i : Nat) : (d.note y t).view i = d.view i := rfl
@[simp] theorem phis_note (y : Slot) (t : RegTable) : (d.note y t).phis = d.phis := rfl
@[simp] theorem sites_note (y : Slot) (t : RegTable) :
    (d.note y t).builder.phiSites = d.builder.phiSites := rfl
/-- An edge is noted last, with the current block as its source. -/
@[simp] theorem edges_note (y : Slot) (t : RegTable) :
    (d.note y t).edges.toList = d.edges.toList ++ [⟨y, ⟨d.cur⟩, t⟩] := by
  simp [note, cur]

@[simp] theorem types_goTo (k : BlockId) : (d.goTo k).types = d.types := rfl
@[simp] theorem cur_goTo (k : BlockId) : (d.goTo k).cur = k.index := rfl
@[simp] theorem size_goTo (k : BlockId) : (d.goTo k).size = d.size := rfl
@[simp] theorem view_goTo (k : BlockId) (i : Nat) : (d.goTo k).view i = d.view i := rfl
@[simp] theorem phis_goTo (k : BlockId) : (d.goTo k).phis = d.phis := rfl
@[simp] theorem edges_goTo (k : BlockId) : (d.goTo k).edges = d.edges := rfl
@[simp] theorem sites_goTo (k : BlockId) : (d.goTo k).builder.phiSites = d.builder.phiSites := rfl

@[simp] theorem types_finish (term : Terminator) : (d.finish term).types = d.types := rfl
@[simp] theorem cur_finish (term : Terminator) : (d.finish term).cur = d.cur := rfl
@[simp] theorem phis_finish (term : Terminator) : (d.finish term).phis = d.phis := rfl
@[simp] theorem edges_finish (term : Terminator) : (d.finish term).edges = d.edges := rfl
@[simp] theorem sites_finish (term : Terminator) :
    (d.finish term).builder.phiSites = d.builder.phiSites := rfl

/-- Ending a block makes no new one. -/
@[simp] theorem size_finish (term : Terminator) : (d.finish term).size = d.size := by
  change (d.builder.function.blocks.modify d.builder.current.index _).size = _
  simp [size]

/-- The end is seen in the current block alone. -/
theorem view_finish (d : Draft) (term : Terminator) (i : Nat) :
    (d.finish term).view i =
      if i = d.cur then (d.view i).map fun p => (p.1, some term) else d.view i := by
  change (((d.builder.function.blocks.modify d.cur fun b =>
    { b with terminator := some term })[i]?).map fun b => (b.insts.toList, b.terminator)) = _
  rw [Array.getElem?_modify]
  by_cases h : i = d.cur
  · rw [if_pos h.symm, if_pos h]
    simp [view, Function.comp_def]
  · rw [if_neg (Ne.symm h), if_neg h]
    rfl

@[simp] theorem types_declare (name : String) : (d.declare name).types = d.types := rfl
@[simp] theorem cur_declare (name : String) : (d.declare name).cur = d.cur := rfl
@[simp] theorem phis_declare (name : String) : (d.declare name).phis = d.phis := rfl
@[simp] theorem edges_declare (name : String) : (d.declare name).edges = d.edges := rfl
@[simp] theorem sites_declare (name : String) :
    (d.declare name).builder.phiSites = d.builder.phiSites := rfl

/-- A declared block is one more. -/
@[simp] theorem size_declare (name : String) : (d.declare name).size = d.size + 1 := by
  simp [declare, size, declareBlock]

/-- A declared block is empty, and the others are as before. -/
theorem view_declare (d : Draft) (name : String) (i : Nat) :
    (d.declare name).view i = if i = d.size then some ([], none) else d.view i := by
  change ((d.builder.function.blocks.push ⟨name, none, #[], #[], none⟩)[i]?).map _ = _
  rw [Array.getElem?_push]
  change (if i = d.size then _ else _ : Option Ssa.Block).map _ = _
  by_cases h : i = d.size
  · rw [if_pos h, if_pos h]
    rfl
  · rw [if_neg h, if_neg h]
    rfl

@[simp] theorem types_annotate (k : BlockId) (text : Option String) :
    (d.annotate k text).types = d.types := rfl
@[simp] theorem cur_annotate (k : BlockId) (text : Option String) :
    (d.annotate k text).cur = d.cur := rfl
@[simp] theorem phis_annotate (k : BlockId) (text : Option String) :
    (d.annotate k text).phis = d.phis := rfl
@[simp] theorem edges_annotate (k : BlockId) (text : Option String) :
    (d.annotate k text).edges = d.edges := rfl
@[simp] theorem sites_annotate (k : BlockId) (text : Option String) :
    (d.annotate k text).builder.phiSites = d.builder.phiSites := rfl

/-- A comment makes no new block. -/
@[simp] theorem size_annotate (k : BlockId) (text : Option String) :
    (d.annotate k text).size = d.size := by
  change (d.builder.function.blocks.modify k.index _).size = _
  simp [size]

/-- A comment is not seen, since it is no code. -/
@[simp] theorem view_annotate (k : BlockId) (text : Option String) (i : Nat) :
    (d.annotate k text).view i = d.view i := by
  change (((d.builder.function.blocks.modify k.index fun b =>
    { b with comment := text })[i]?).map fun b => (b.insts.toList, b.terminator)) = _
  simp only [view, Array.getElem?_modify]
  split
  · simp [Function.comp_def]
  · rfl

end Draft

/-! ## Running the walk -/

/-- A step that succeeds hands its result and its draft on. -/
theorem run_bind {x : Walk α} {k : α → Walk β} {a : α} (h : x d = .ok (a, d₁)) :
    (x >>= k) d = k a d₁ := by
  change (x d >>= fun p => k p.1 p.2) = _
  rw [h]
  rfl

/-- What comes next does not care which way the walk came to the same draft. -/
theorem run_bind_congr {x y : Walk α} (h : x d = y d₁) (k : α → Walk β) :
    (x >>= k) d = (y >>= k) d₁ := by
  change (x d >>= fun p => k p.1 p.2) = (y d₁ >>= fun p => k p.1 p.2)
  rw [h]

/-- Noting an edge as a step of the walk. -/
theorem noteEdge_run (y : Slot) (t : RegTable) : Scope.noteEdge y t d = .ok ((), d.note y t) := rfl

/-- Ending a block as a step of the walk. -/
theorem terminate_run (term : Terminator) :
    (liftM (terminate term) : Walk Unit) d = .ok ((), d.finish term) := rfl

/-- Declaring a block as a step of the walk gives the number of the new block. -/
theorem declareBlock_run (name : String) :
    (liftM (declareBlock name) : Walk BlockId) d = .ok (⟨d.size⟩, d.declare name) := rfl

/-- What a step of the builder that may fail does to a draft. -/
theorem attempt_eq_ok {x : Attempt α} {a : α} {d' : Draft} :
    (liftM x : Walk α) d = .ok (a, d') ↔
      ∃ b, x d.builder = .ok (a, b) ∧ d' = { d with builder := b } := by
  change (Except.mapError _ (x d.builder) >>= fun p => _) = _ ↔ _
  cases x d.builder with
  | error e => exact ⟨nofun, nofun⟩
  | ok p =>
    constructor
    · rintro ⟨⟩
      exact ⟨p.2, rfl, rfl⟩
    · rintro ⟨b, ⟨⟩, rfl⟩
      rfl

/-- Only the blocks of the function are switched to. -/
theorem switchTo_eq_ok {k : BlockId} {u : Unit} {d' : Draft} :
    (liftM (switchTo k) : Walk Unit) d = .ok (u, d') ↔ k.index < d.size ∧ d' = d.goTo k := by
  rw [attempt_eq_ok]
  constructor
  · rintro ⟨b, hb, rfl⟩
    obtain ⟨hlt, ⟨⟩⟩ := Builder.switchTo_eq_ok.1 hb
    exact ⟨hlt, rfl⟩
  · rintro ⟨hlt, rfl⟩
    exact ⟨_, Builder.switchTo_eq_ok.2 ⟨hlt, rfl⟩, rfl⟩

/-- Switching to a block of the function as a step of the walk. -/
theorem switchTo_run {k : BlockId} (h : k.index < d.size) :
    (liftM (switchTo k) : Walk Unit) d = .ok ((), d.goTo k) := switchTo_eq_ok.2 ⟨h, rfl⟩

/-- Only the blocks of the function get comments. -/
theorem setBlockComment_run {k : BlockId} (h : k.index < d.size) (text : Option String) :
    (liftM (setBlockComment k text) : Walk Unit) d = .ok ((), d.annotate k text) :=
  attempt_eq_ok.2 ⟨_, Builder.setBlockComment_eq_ok.2 ⟨h, rfl⟩, rfl⟩

/-- Emitting code in the walk. -/
theorem Yields.walk {x : Emit α} {T : α → Site → Prop}
    {P : α → (Value → UInt64) → Watched → Watched → Prop} (h : Yields (d.site A) x T P) :
    ∃ a tys code A', (liftM x : Walk α) d = .ok (a, d.emit tys code) ∧
      Ssa.Code ⟨d.types, A⟩ code ⟨tys, A'⟩ ∧ T a ((d.emit tys code).site A') ∧
      ∀ f V m m', (⟨tys, A'⟩ : Context).Fits f → Sat f V code m m' → P a V m m' := by
  obtain ⟨a, s', code, hrun, hgrows, hT, hP⟩ := h
  have hbuilder := hgrows.builder
  refine ⟨a, s'.builder.function.types, code, s'.avail, ?_, hgrows.ordered, ?_, hP⟩
  · rw [liftEmit_run]
    change (x (d.site A).builder).map _ = _
    rw [hrun]
    change Except.ok (a, ({ d with builder := s'.builder } : Draft)) = _
    rw [Draft.emit, hbuilder]
    rfl
  · have hsite : (d.emit s'.builder.function.types code).site s'.avail = s' := by
      obtain ⟨b', A'⟩ := s'
      exact congrArg (Site.mk · A') hbuilder.symm
    rw [hsite]
    exact hT

/-! ## Frames -/

/-- A step that only changes the blocks it owns, and otherwise adds blocks, values and edges. -/
structure Grown (own : Nat → Prop) (d d' : Draft) : Prop where
  size : d.size ≤ d'.size
  view : ∀ i, i < d.size → ¬ own i → d'.view i = d.view i
  types : ∀ (i : Nat) (ty : Ty), d.types[i]? = some ty → d'.types[i]? = some ty
  edges : ∃ new, d'.edges.toList = d.edges.toList ++ new ∧
    ∀ e ∈ new, own e.source.index ∨ d.size ≤ e.source.index
  sites : ∀ v : Nat, v < d.types.size → d'.builder.phiSites[v]? = d.builder.phiSites[v]?
  tidy : d.Tidy → d'.Tidy

namespace Grown

/-- No growth at all. -/
theorem refl (own : Nat → Prop) (d : Draft) : Grown own d d :=
  ⟨Nat.le_refl _, fun _ _ _ => rfl, fun _ _ h => h, ⟨[], by simp, by simp⟩, fun _ _ => rfl,
    fun h => h⟩

/-- No value is lost. -/
theorem types_size (h : Grown own d d') : d.types.size ≤ d'.types.size := by
  have hle : Context.Le ⟨d.types, fun _ => True⟩ ⟨d'.types, fun _ => True⟩ :=
    ⟨h.types, fun _ h => h⟩
  exact hle.size_le

/-- Growth on top of growth. -/
theorem trans (h : Grown own d d₁) (h' : Grown own d₁ d₂) : Grown own d d₂ := by
  obtain ⟨new, hnew, hsrc⟩ := h.edges
  obtain ⟨new', hnew', hsrc'⟩ := h'.edges
  refine ⟨Nat.le_trans h.size h'.size, fun i hi ho => ?_, fun i ty hi => h'.types i ty (h.types i ty hi),
    ⟨new ++ new', by rw [hnew', hnew, List.append_assoc], fun e he => ?_⟩, fun v hv => ?_,
    fun ht => h'.tidy (h.tidy ht)⟩
  · rw [h'.view i (Nat.lt_of_lt_of_le hi h.size) ho, h.view i hi ho]
  · rcases List.mem_append.1 he with he | he
    · exact hsrc e he
    · exact (hsrc' e he).imp_right (Nat.le_trans h.size)
  · rw [h'.sites v (Nat.lt_of_lt_of_le hv h.types_size), h.sites v hv]

/-- Growth in some blocks is growth in more of them. -/
theorem mono (h : Grown own d d') (hown : ∀ i, own i → own' i) : Grown own' d d' :=
  ⟨h.size, fun i hi ho => h.view i hi fun hi' => ho (hown i hi'), h.types,
    let ⟨new, hnew, hsrc⟩ := h.edges
    ⟨new, hnew, fun e he => (hsrc e he).imp_left (hown _)⟩, h.sites, h.tidy⟩

/-- Blocks made along the way need not be owned. -/
theorem weaken (h : Grown own d d₁) (h' : Grown own' d₁ d₂)
    (hown : ∀ i, own' i → own i ∨ d.size ≤ i) : Grown own d d₂ := by
  obtain ⟨new, hnew, hsrc⟩ := h.edges
  obtain ⟨new', hnew', hsrc'⟩ := h'.edges
  refine ⟨Nat.le_trans h.size h'.size, fun i hi ho => ?_, fun i ty hi => h'.types i ty (h.types i ty hi),
    ⟨new ++ new', by rw [hnew', hnew, List.append_assoc], fun e he => ?_⟩, fun v hv => ?_,
    fun ht => h'.tidy (h.tidy ht)⟩
  · rw [h'.view i (Nat.lt_of_lt_of_le hi h.size), h.view i hi ho]
    intro ho'
    rcases hown i ho' with ho'' | hle
    · exact ho ho''
    · omega
  · rcases List.mem_append.1 he with he | he
    · exact hsrc e he
    · rcases hsrc' e he with ho' | hle
      · exact hown _ ho'
      · exact .inr (Nat.le_trans h.size hle)
  · rw [h'.sites v (Nat.lt_of_lt_of_le hv h.types_size), h.sites v hv]

/-- The edges that come from a block which a step does not touch. -/
theorem edges_from (h : Grown own d d') (hi : i < d.size) (ho : ¬ own i) :
    d'.edges.toList.filter (·.source.index == i) = d.edges.toList.filter (·.source.index == i) := by
  obtain ⟨new, hnew, hsrc⟩ := h.edges
  rw [hnew, List.filter_append]
  have hnil : new.filter (·.source.index == i) = [] := by
    refine List.filter_eq_nil_iff.2 fun e he heq => ?_
    rw [beq_iff_eq] at heq
    rcases hsrc e he with ho' | hle
    · exact ho (heq ▸ ho')
    · omega
  rw [hnil, List.append_nil]

end Grown

/-! ## Frames of the steps -/

open Draft

/-- A step that does not define a value keeps a draft tidy. -/
private theorem tidy_of_dsts (hdsts : ∀ i, d'.dsts i = d.dsts i) (htypes : d'.types = d.types)
    (hedges : ∀ e ∈ d'.edges.toList, e ∈ d.edges.toList ∨ e.source.index < d.size)
    (hsize : d.size ≤ d'.size) (hphis : d'.phis = d.phis) (h : d.Tidy) : d'.Tidy where
  nodup i := hdsts i ▸ h.nodup i
  apart i j v hi hj := h.apart i j v (hdsts i ▸ hi) (hdsts j ▸ hj)
  bound i v hv := htypes ▸ h.bound i v (hdsts i ▸ hv)
  sources e he := by
    rcases hedges e he with he | he
    · exact Nat.lt_of_lt_of_le (h.sources e he) hsize
    · exact Nat.lt_of_lt_of_le he hsize
  sorted := hphis ▸ h.sorted

/-- An edge is noted for the current block. -/
theorem grown_note (y : Slot) (t : RegTable) (ho : own d.cur) (hcur : d.cur < d.size) :
    Grown own d (d.note y t) := by
  refine ⟨Nat.le_refl _, fun _ _ _ => rfl, fun _ _ h => h, ⟨_, edges_note y t, by simp [ho]⟩,
    fun _ _ => rfl, tidy_of_dsts (fun _ => rfl) rfl (fun e he => ?_) (Nat.le_refl _) rfl⟩
  rw [edges_note] at he
  rcases List.mem_append.1 he with he | he
  · exact .inl he
  · rw [List.mem_singleton.1 he]
    exact .inr hcur

/-- The walk may stand anywhere. -/
theorem grown_goTo (k : BlockId) : Grown own d (d.goTo k) :=
  ⟨Nat.le_refl _, fun _ _ _ => rfl, fun _ _ h => h, ⟨[], by simp, by simp⟩, fun _ _ => rfl,
    tidy_of_dsts (fun _ => rfl) rfl (fun _ he => .inl he) (Nat.le_refl _) rfl⟩

/-- Comments may stand anywhere. -/
theorem grown_annotate (k : BlockId) (text : Option String) : Grown own d (d.annotate k text) := by
  refine ⟨by simp, fun i _ _ => view_annotate k text i, fun _ _ h => h, ⟨[], by simp, by simp⟩,
    fun _ _ => rfl, tidy_of_dsts (fun i => ?_) rfl (fun _ he => .inl he) (by simp) rfl⟩
  simp only [Draft.dsts, view_annotate]

/-- An end defines no value. -/
theorem dsts_finish (d : Draft) (term : Terminator) (i : Nat) :
    (d.finish term).dsts i = d.dsts i := by
  simp only [Draft.dsts, view_finish]
  by_cases h : i = d.cur
  · rw [if_pos h]
    cases d.view i <;> rfl
  · rw [if_neg h]

/-- The end goes to the current block. -/
theorem grown_finish (term : Terminator) (ho : own d.cur) : Grown own d (d.finish term) := by
  refine ⟨by simp, fun i _ hi => ?_, fun _ _ h => h, ⟨[], by simp, by simp⟩, fun _ _ => rfl,
    tidy_of_dsts (dsts_finish d term) rfl (fun _ he => .inl he) (by simp) rfl⟩
  rw [view_finish, if_neg]
  rintro rfl
  exact hi ho

/-- A new block defines no value yet. -/
theorem dsts_declare (d : Draft) (name : String) (i : Nat) :
    (d.declare name).dsts i = d.dsts i := by
  simp only [Draft.dsts, view_declare]
  by_cases h : i = d.size
  · rw [if_pos h, view_eq_none (Nat.le_of_eq h.symm)]
    rfl
  · rw [if_neg h]

/-- A new block takes nothing from the others. -/
theorem grown_declare (name : String) : Grown own d (d.declare name) := by
  refine ⟨by simp, fun i hi _ => ?_, fun _ _ h => h, ⟨[], by simp, by simp⟩, fun _ _ => rfl,
    tidy_of_dsts (dsts_declare d name) rfl (fun _ he => .inl he) (by simp) rfl⟩
  rw [view_declare, if_neg (Nat.ne_of_lt hi)]

/-- The values of new code are those of the current block. -/
theorem dsts_emit (d : Draft) (tys : Array Ty) (code : List Inst) (i : Nat) (hcur : d.cur < d.size) :
    (d.emit tys code).dsts i = if i = d.cur then d.dsts i ++ Ssa.dsts code else d.dsts i := by
  simp only [Draft.dsts, view_emit]
  by_cases h : i = d.cur
  · obtain ⟨p, hp⟩ := exists_view hcur
    simp [h, hp]
  · rw [if_neg h, if_neg h]

/-- Code defines new values. -/
theorem tidy_emit {A' : Value → Prop} (hcode : Ssa.Code ⟨d.types, A⟩ code ⟨tys, A'⟩)
    (hcur : d.cur < d.size) (h : d.Tidy) : (d.emit tys code).Tidy := by
  -- New values have higher numbers than all before, so they are new to every block.
  have hnew : ∀ v ∈ Ssa.dsts code, d.types.size ≤ v.index ∧ v.index < tys.size := by
    intro v hv
    obtain ⟨inst, hi, hd⟩ := mem_dsts.1 hv
    exact hcode.dst_range hi hd
  have hsize : d.types.size ≤ tys.size := hcode.size_le
  have hmem : ∀ i v, v ∈ (d.emit tys code).dsts i ↔ v ∈ d.dsts i ∨ i = d.cur ∧ v ∈ Ssa.dsts code := by
    intro i v
    rw [dsts_emit _ _ _ _ hcur]
    split <;> simp_all
  refine ⟨fun i => ?_, fun i j v hi hj => ?_, fun i v hv => ?_,
    fun e he => by rw [size_emit]; exact h.sources e he, h.sorted⟩
  · rw [dsts_emit _ _ _ _ hcur]
    split
    · refine List.nodup_append.2 ⟨h.nodup i, hcode.nodup_dsts, fun v hv w hw heq => ?_⟩
      have := h.bound i v hv
      have := (hnew w hw).1
      subst heq
      omega
    · exact h.nodup i
  · rcases (hmem i v).1 hi with hi' | ⟨hi', hvi⟩ <;> rcases (hmem j v).1 hj with hj' | ⟨hj', hvj⟩
    · exact h.apart i j v hi' hj'
    · have := h.bound i v hi'
      have := (hnew v hvj).1
      omega
    · have := h.bound j v hj'
      have := (hnew v hvi).1
      omega
    · rw [hi', hj']
  · rcases (hmem i v).1 hv with hv' | ⟨_, hv'⟩
    · exact Nat.lt_of_lt_of_le (h.bound i v hv') hsize
    · exact (hnew v hv').2

/-- Code in order goes to the current block: its values are new, and they have their types. -/
theorem grown_emit {A' : Value → Prop} (hcode : Ssa.Code ⟨d.types, A⟩ code ⟨tys, A'⟩) (ho : own d.cur)
    (hcur : d.cur < d.size) : Grown own d (d.emit tys code) := by
  refine ⟨by simp, fun i _ hi => ?_, fun i ty h => hcode.le.types i ty h, ⟨[], by simp, by simp⟩,
    fun _ _ => rfl, tidy_emit hcode hcur⟩
  rw [view_emit, if_neg]
  rintro rfl
  exact hi ho

end HotRegion.Lowering
