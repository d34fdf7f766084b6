import HotRegion.Proofs.Lowering.Table

/-!
# Slots of floating-point registers

The floating-point part of a register table, laid out as one slot a register. A double takes both
slots of its pair: its value stands in the even one, and the odd one is marked as the high half. The
layout has states that mean nothing, such as a mark beside an even slot without a double, and an
access that meets one cannot go on.

A register table keeps its registers in pairs and has no such states. `RegTable.slots` is the layout
of a table, and each access to the layout is the access to the table: it emits the same code, gives
the same value, and leaves the layout of the table that the access to the table leaves.

## Key results

- `readBits_slots`, `readSingle_slots`, `readDouble_slots`: reading
- `writeHalf_slots`, `writeDouble_slots`: writing
- `paired_slots`, `Paired.splitPair`: a mark stands beside a double, also halfway through a write
-/

namespace HotRegion.Lowering

open Isa Analysis Ssa

/-- How one floating-point register is held. -/
inductive FprSlot where
  | untouched
  | single (v : Value)
  | bits (v : Value)
  /-- A double held by this even register and its partner. -/
  | double (v : Value)
  /-- The odd half of a double. -/
  | doubleHigh
  deriving DecidableEq, Inhabited

/-- Ways in which an access to the slots can fail. -/
inductive SlotFault where
  | breakdown (error : Breakdown)
  /-- The high half of a double without its low half. -/
  | stranded (r : Fpr)

/-- A computation that emits code and accesses slots. -/
abbrev SlotEmit := StateT Builder (Except SlotFault)

instance : MonadLift Attempt SlotEmit where
  monadLift x := fun b => (x b).mapError fun e => .breakdown (.misuse e)

/-- A slot for every floating-point register. -/
structure FprSlots where
  slot : Vector FprSlot 32

namespace FprSlots

def new : FprSlots := ⟨Vector.replicate 32 .untouched⟩

def get (s : FprSlots) (r : Fpr) : FprSlot := s.slot.get r.num

def put (s : FprSlots) (r : Fpr) (x : FprSlot) : FprSlots := ⟨s.slot.set r.num.val x r.num_lt⟩

/-! ## Accesses -/

/-- The word in a register. -/
def readBits (s : FprSlots) (r : Fpr) : SlotEmit Value :=
  match s.get r with
  | .bits v => return v
  | .single v => Build.cast .bitcast v .i32
  | .double v => RegTable.lowBits v
  | .doubleHigh =>
    match s.get r.base with
    | .double v => RegTable.highBits v
    | _ => throw (.stranded r)
  | .untouched => throw (.breakdown (.unloaded (.fpr r)))

/-- The single in a register. -/
def readSingle (s : FprSlots) (r : Fpr) : SlotEmit Value := do
  match s.get r with
  | .single v => return v
  | _ => Build.cast .bitcast (← s.readBits r) .f32

/-- The double in the pair that a register belongs to. -/
def readDouble (s : FprSlots) (r : Fpr) : SlotEmit Value := do
  match s.get r.base with
  | .double v => return v
  | _ =>
    let low ← s.readBits r.base
    let high ← s.readBits r.base.partner
    let low ← Build.cast .zext low .i64
    let high ← Build.cast .zext high .i64
    let amount ← Build.const .i64 32
    let high ← Build.binary .shl high amount
    let bits ← Build.binary .or high low
    Build.cast .bitcast bits .f64

/-- Before one half of a double is overwritten the other half gets its own word. The slot of the
half itself is left untouched until the write that follows. -/
def splitPair (s : FprSlots) (r : Fpr) : SlotEmit FprSlots := do
  match s.get r.base with
  | .double _ =>
    let bits ← s.readBits r.partner
    return (s.put r.partner (.bits bits)).put r .untouched
  | _ => return s

def writeBits (s : FprSlots) (r : Fpr) (v : Value) : SlotEmit FprSlots := do
  return (← s.splitPair r).put r (.bits v)

def writeSingle (s : FprSlots) (r : Fpr) (v : Value) : SlotEmit FprSlots := do
  return (← s.splitPair r).put r (.single v)

def writeDouble (s : FprSlots) (r : Fpr) (v : Value) : FprSlots :=
  (s.put r.base (.double v)).put r.base.partner .doubleHigh

/-- The value of a register in the form it has at region boundaries. -/
def getTracked (s : FprSlots) (fp : FpTouched) (r : Fpr) : SlotEmit Value :=
  match fp.form r with
  | .single => s.readSingle r
  | .double => s.readDouble r
  | .bits | .covered => s.readBits r

/-- Gives a register a value in the form it has at region boundaries. -/
def setTracked (s : FprSlots) (fp : FpTouched) (r : Fpr) (v : Value) : SlotEmit FprSlots :=
  match fp.form r with
  | .single => s.writeSingle r v
  | .double => return s.writeDouble r v
  | .bits | .covered => s.writeBits r v

/-! ## Doubles and their marks -/

/-- An odd slot is marked as a high half exactly if its even partner holds a double. -/
def Paired (s : FprSlots) : Prop :=
  ∀ r, r.isEven = false → (s.get r = .doubleHigh ↔ ∃ v, s.get r.partner = .double v)

/-- A slot that is set is read back, and the others stay. -/
theorem get_put (s : FprSlots) (r r' : Fpr) (x : FprSlot) :
    (s.put r x).get r' = if r' = r then x else s.get r' := by
  simp only [get, put, get_set, Fpr.num_inj]

/-- Files with the same slots are the same. -/
theorem ext_get {s s' : FprSlots} (h : ∀ r, s.get r = s'.get r) : s = s' := by
  obtain ⟨slots⟩ := s
  obtain ⟨slots'⟩ := s'
  refine congrArg mk (Vector.ext fun i hi => ?_)
  exact h ⟨i, hi⟩

end FprSlots

/-! ## The layout of a table -/

def Half.slot : Half → FprSlot
  | .unloaded => .untouched
  | .single v => .single v
  | .bits v => .bits v

/-- The slot of the even or the odd register of a pair. -/
def Pair.slot (even : Bool) : Pair → FprSlot
  | .double v => if even then .double v else .doubleHigh
  | .halves low high => (if even then low else high).slot

/-- The slots of all floating-point registers of a table. -/
def RegTable.slots (t : RegTable) : FprSlots :=
  ⟨Vector.ofFn fun i => (t.getPair ⟨i⟩).slot (Fpr.isEven ⟨i⟩)⟩

/-- A computation on tables as one on slots: neither its code nor its failures change. -/
def onSlots {α : Type} (x : Emit α) : SlotEmit α := fun b => (x b).mapError .breakdown

section

variable {α β : Type} {t : RegTable} {r r' : Fpr} {v : Value} {s s' : FprSlots} {b b' : Builder}

@[simp] theorem onSlots_pure (a : α) : onSlots (pure a) = pure a := rfl

/-- A version by slots goes step by step. -/
theorem onSlots_bind (x : Emit α) (k : α → Emit β) :
    onSlots (x >>= k) = onSlots x >>= fun a => onSlots (k a) := by
  funext b
  change Except.mapError _ (x b >>= fun p => k p.1 p.2) =
    Except.mapError _ (x b) >>= fun p => Except.mapError _ (k p.1 p.2)
  cases x b <;> rfl

/-- Steps of the builder are the same on slots. -/
theorem onSlots_liftM (x : Attempt α) : onSlots (liftM x) = liftM x := by
  funext b
  change Except.mapError _ (Except.mapError _ (x b)) = Except.mapError _ (x b)
  cases x b <;> rfl

/-- A version by slots changes results as the other one does. -/
theorem onSlots_map (f : α → β) (x : Emit α) : onSlots (f <$> x) = f <$> onSlots x := by
  funext b
  change Except.mapError _ (x b >>= fun p => pure (f p.1, p.2)) =
    Except.mapError _ (x b) >>= fun p => pure (f p.1, p.2)
  cases x b <;> rfl

/-- A computation goes through on slots if it goes through on tables. -/
theorem onSlots_map_eq_ok {f : α → β} {x : Emit α} {y : β} :
    onSlots (f <$> x) b = .ok (y, b') ↔ ∃ a, x b = .ok (a, b') ∧ f a = y := by
  change Except.mapError _ (x b >>= fun p => pure (f p.1, p.2)) = _ ↔ _
  cases x b with
  | error e =>
    refine ⟨fun h => ?_, fun ⟨_, h, _⟩ => ?_⟩ <;> cases h
  | ok p =>
    refine ⟨fun h => ?_, fun ⟨_, h, hf⟩ => ?_⟩
    · cases h
      exact ⟨p.1, rfl, rfl⟩
    · cases h
      rw [← hf]
      rfl

/-- A half in use is no whole double. -/
theorem Half.slot_ne_double (h : Half) : h.slot ≠ .double v := by cases h <;> simp [Half.slot]

/-- A half in use is not the high word of a double. -/
theorem Half.slot_ne_doubleHigh (h : Half) : h.slot ≠ .doubleHigh := by
  cases h <;> simp [Half.slot]

@[simp] theorem get_slots (t : RegTable) (r : Fpr) :
    t.slots.get r = (t.getPair r).slot r.isEven := by
  simp only [RegTable.slots, FprSlots.get, Vector.get_ofFn]

/-- The new table has the new file of slots. -/
theorem slots_new (zero : Value) : (RegTable.new zero).slots = .new := by
  refine FprSlots.ext_get fun r => ?_
  have hpair : (RegTable.new zero).getPair r = .halves .unloaded .unloaded := by
    simp [RegTable.new, RegTable.getPair, Vector.get]
  rw [get_slots, hpair]
  cases hr : r.isEven <;> simp [Pair.slot, Half.slot, FprSlots.new, FprSlots.get, Vector.get]

/-! ## Reading -/

/-- Reading bits makes the same code in both versions. -/
theorem readBits_slots (t : RegTable) (r : Fpr) : t.slots.readBits r = onSlots (t.readBits r) := by
  unfold FprSlots.readBits RegTable.readBits
  rw [get_slots]
  cases hp : t.getPair r with
  | double v =>
    have hbase : t.slots.get r.base = .double v := by
      rw [get_slots, t.getPair_base (Fpr.base_base r), hp, Fpr.isEven_base]
      rfl
    cases he : r.isEven with
    | true => rfl
    | false =>
      simp only [Pair.slot, Bool.false_eq_true, if_false, hbase]
      exact (onSlots_liftM _).symm
  | halves low high =>
    simp only [Pair.slot]
    cases (if r.isEven then low else high) <;> rfl

/-- Reading a single makes the same code in both versions. -/
theorem readSingle_slots (t : RegTable) (r : Fpr) :
    t.slots.readSingle r = onSlots (t.readSingle r) := by
  have hword : (do liftM (Build.cast .bitcast (← t.slots.readBits r) .f32) : SlotEmit Value) =
      onSlots (do liftM (Build.cast .bitcast (← t.readBits r) .f32)) := by
    rw [onSlots_bind, readBits_slots]
    rfl
  unfold FprSlots.readSingle RegTable.readSingle
  rw [get_slots]
  cases hp : t.getPair r with
  | double v => cases r.isEven <;> exact hword
  | halves low high =>
    simp only [Pair.slot]
    cases (if r.isEven then low else high) with
    | single w => rfl
    | unloaded => exact hword
    | bits w => exact hword

/-- Reading a double makes the same code in both versions. -/
theorem readDouble_slots (t : RegTable) (r : Fpr) :
    t.slots.readDouble r = onSlots (t.readDouble r) := by
  unfold FprSlots.readDouble RegTable.readDouble
  rw [get_slots, Fpr.isEven_base, t.getPair_base (Fpr.base_base r)]
  cases hp : t.getPair r with
  | double v => rfl
  | halves low high =>
    simp only [onSlots_bind, readBits_slots, onSlots_liftM]
    cases low <;> rfl

/-! ## Writing -/

/-- Setting a slot to what it is changes nothing. -/
theorem put_self (s : FprSlots) (r : Fpr) : s.put r (s.get r) = s := by
  refine FprSlots.ext_get fun r' => ?_
  rw [FprSlots.get_put]
  split
  · rename_i h
    rw [h]
  · rfl

/-- Only the last setting of a slot counts. -/
theorem put_put (s : FprSlots) (r : Fpr) (x y : FprSlot) : (s.put r x).put r y = s.put r y := by
  refine FprSlots.ext_get fun r' => ?_
  simp only [FprSlots.get_put]
  split <;> rfl

/-- Replacing the two slots of a pair replaces the pair. -/
theorem put_put_slots (t : RegTable) (r : Fpr) (p : Pair) :
    (t.slots.put r.partner (p.slot r.partner.isEven)).put r (p.slot r.isEven) =
      (t.setPair r p).slots := by
  refine FprSlots.ext_get fun r' => ?_
  rw [get_slots, RegTable.getPair_setPair]
  simp only [FprSlots.get_put, get_slots]
  by_cases hb : r'.base = r.base
  · rw [if_pos hb]
    rcases Fpr.eq_or_eq_partner hb with rfl | rfl
    · rw [if_pos rfl]
    · rw [if_neg (Fpr.partner_ne r), if_pos rfl]
  · have hne : r' ≠ r := fun h => hb (congrArg Fpr.base h)
    have hpartner : r' ≠ r.partner := fun h => hb ((congrArg Fpr.base h).trans (Fpr.partner_base r))
    rw [if_neg hb, if_neg hne, if_neg hpartner]

/-- Writing a half makes the same code and leaves the same slots in both versions. -/
theorem writeHalf_slots (t : RegTable) (r : Fpr) (h : Half) :
    (do return (← t.slots.splitPair r).put r h.slot : SlotEmit FprSlots) =
      onSlots (RegTable.slots <$> t.writeHalf r h) := by
  have hget : t.slots.get r.base = (t.getPair r).slot true := by
    rw [get_slots, Fpr.isEven_base, t.getPair_base (Fpr.base_base r)]
  have hpartner : t.slots.get r.partner = (t.getPair r).slot r.partner.isEven := by
    rw [get_slots, t.getPair_base (Fpr.partner_base r)]
  rw [onSlots_map]
  unfold FprSlots.splitPair RegTable.writeHalf
  rw [hget]
  cases hp : t.getPair r with
  | halves low high =>
    -- The partner keeps its slot.
    have hput := put_put_slots t r (if r.isEven then .halves h high else .halves low h)
    have hkeep : (if r.isEven then Pair.halves h high else .halves low h).slot r.partner.isEven =
        t.slots.get r.partner := by
      rw [hpartner, hp, Fpr.isEven_partner]
      cases r.isEven <;> rfl
    have hnew : (if r.isEven then Pair.halves h high else .halves low h).slot r.isEven =
        h.slot := by
      cases r.isEven <;> rfl
    rw [hkeep, hnew, put_self] at hput
    simp only [onSlots_pure, map_pure, ← hput]
    cases low <;> rfl
  | double v =>
    -- The partner gets its word, which is read first.
    have hread : t.slots.readBits r.partner =
        liftM (if r.isEven then RegTable.highBits v else RegTable.lowBits v : Attempt Value) := by
      rw [readBits_slots, RegTable.readBits, t.getPair_base (Fpr.partner_base r), hp,
        Fpr.isEven_partner]
      cases r.isEven
      · rfl
      · exact onSlots_liftM _
    have hput : ∀ w, ((t.slots.put r.partner (.bits w)).put r .untouched).put r h.slot =
        (t.setPair r (if r.isEven then .halves h (.bits w) else .halves (.bits w) h)).slots := by
      intro w
      rw [put_put, ← put_put_slots, Fpr.isEven_partner]
      cases r.isEven <;> rfl
    simp only [Pair.slot, if_true, hread, bind_assoc, pure_bind, hput]
    cases r.isEven
    · rfl
    · simp only [if_true, onSlots_bind, onSlots_liftM, onSlots_pure, map_bind, map_pure]

/-- Writing bits makes the same code and leaves the same slots in both versions. -/
theorem writeBits_slots (t : RegTable) (r : Fpr) (v : Value) :
    t.slots.writeBits r v = onSlots (RegTable.slots <$> t.writeBits r v) :=
  writeHalf_slots t r (.bits v)

/-- Writing a single makes the same code and leaves the same slots in both versions. -/
theorem writeSingle_slots (t : RegTable) (r : Fpr) (v : Value) :
    t.slots.writeSingle r v = onSlots (RegTable.slots <$> t.writeSingle r v) :=
  writeHalf_slots t r (.single v)

/-- Writing a double leaves the same slots in both versions, without code. -/
theorem writeDouble_slots (t : RegTable) (r : Fpr) (v : Value) :
    t.slots.writeDouble r v = (t.writeDouble r v).slots := by
  have hput := put_put_slots t r.base.partner (.double v)
  rw [Fpr.partner_partner, Fpr.isEven_partner, Fpr.isEven_base] at hput
  have hpair : t.setPair r.base.partner (.double v) = t.setPair r (.double v) := by
    simp only [RegTable.setPair, RegTable.pairIndex_eq_iff.2 (Fpr.base_partner r)]
  rw [hpair] at hput
  exact hput

/-! ## Accesses to tracked registers -/

/-- Reading a merged register makes the same code in both versions. -/
theorem getTracked_slots (t : RegTable) (fp : FpTouched) (r : Fpr) :
    t.slots.getTracked fp r = onSlots (t.get fp (.fpr r)) := by
  simp only [FprSlots.getTracked, RegTable.get]
  cases fp.form r with
  | single => exact readSingle_slots t r
  | double => exact readDouble_slots t r
  | bits | covered => exact readBits_slots t r

/-- Writing a merged register makes the same code and leaves the same slots in both versions. -/
theorem setTracked_slots (t : RegTable) (fp : FpTouched) (r : Fpr) (v : Value) :
    t.slots.setTracked fp r v = onSlots (RegTable.slots <$> t.set fp (.fpr r) v) := by
  simp only [FprSlots.setTracked, RegTable.set]
  cases fp.form r with
  | single => exact writeSingle_slots t r v
  | double => simp only [writeDouble_slots, map_pure, onSlots_pure]
  | bits | covered => exact writeBits_slots t r v

/-! ## Marks -/

/-- In the layout of a table the marks are right. -/
theorem paired_slots (t : RegTable) : t.slots.Paired := by
  intro r hr
  rw [get_slots, get_slots, t.getPair_base (Fpr.partner_base r), Fpr.isEven_partner, hr]
  cases t.getPair r with
  | double v => simp [Pair.slot]
  | halves low high =>
    simp only [Pair.slot, Bool.false_eq_true, if_false, Bool.not_false, if_true]
    exact ⟨fun h => absurd h high.slot_ne_doubleHigh, fun ⟨_, h⟩ => absurd h low.slot_ne_double⟩

/-- They are right between the two steps of a write as well. -/
theorem FprSlots.Paired.splitPair (hs : s.Paired) (h : s.splitPair r b = .ok (s', b')) :
    s'.Paired := by
  by_cases hd : ∃ v, s.get r.base = .double v
  · obtain ⟨v, hv⟩ := hd
    obtain ⟨w, rfl⟩ : ∃ w, s' = (s.put r.partner (.bits w)).put r .untouched := by
      simp only [FprSlots.splitPair, hv] at h
      change (s.readBits r.partner b >>= fun p => pure (_, p.2)) = _ at h
      cases hread : s.readBits r.partner b with
      | error e =>
        rw [hread] at h
        cases h
      | ok p =>
        rw [hread] at h
        cases h
        exact ⟨p.1, rfl⟩
    -- Neither slot of the pair says anything of a double now.
    intro r' hr'
    simp only [get_put]
    by_cases hb : r'.base = r.base
    · rcases Fpr.eq_or_eq_partner hb with rfl | rfl
      · simp [Fpr.partner_ne]
      · simp [Fpr.partner_ne, Fpr.partner_partner]
    · have hb' : r'.partner.base ≠ r.base := by rwa [Fpr.partner_base]
      have hne : ∀ r' : Fpr, r'.base ≠ r.base → r' ≠ r ∧ r' ≠ r.partner := fun r' hb =>
        ⟨fun h => hb (congrArg Fpr.base h),
          fun h => hb ((congrArg Fpr.base h).trans r.partner_base)⟩
      simp only [hne r' hb, hne _ hb', if_false]
      exact hs r' hr'
  · have hsame : s.splitPair r = pure s := by
      unfold FprSlots.splitPair
      split
      · rename_i v hv
        exact absurd ⟨v, hv⟩ hd
      · rfl
    rw [hsame] at h
    cases h
    exact hs

end

end HotRegion.Lowering
