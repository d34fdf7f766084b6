import HotRegion.Proofs.Lowering.Emit
import HotRegion.Proofs.Machine.Units

/-!
# Register tables and guest state

A register table gives each unit of guest state that is loaded the bits of a value. It agrees with a
state if these are the bits of the unit. Reading a table emits code for the bits that the state
holds; writing a table and the state alike keeps them in agreement.

## Key results

- `gives_readBits`, `gives_readFp`: reading a floating-point register at any width
- `yields_writeHalf`: writing one half of a pair keeps the other
- `gives_get`, `yields_set`: the value of a tracked register at the boundary of a block
-/

namespace HotRegion.Lowering

open Isa Analysis Ssa
open Machine (State)
open Region (Tracked)

variable {s s' : Site} {t t' : RegTable} {V : Value → UInt64} {g : State} {u : Tracked} {v : Value}
  {r : Gpr} {f : Fpr} {x : UInt32}

/-! ## Units in a table -/

/-- The bits of a register that is held as a half. -/
def Half.bits? (V : Value → UInt64) : Half → Option UInt64
  | .unloaded => none
  | .single v | .bits v => some (V v)

@[simp] theorem Half.bits?_bits (V : Value → UInt64) (v : Value) :
    (Half.bits v).bits? V = some (V v) := rfl

@[simp] theorem Half.bits?_single (V : Value → UInt64) (v : Value) :
    (Half.single v).bits? V = some (V v) := rfl

/-- The value of a half has the type for it. -/
def Half.Typed (s : Site) : Half → Prop
  | .unloaded => True
  | .single v => s.Has v .f32
  | .bits v => s.Has v .i32

/-- The bits of the even or the odd register of a pair. -/
def Pair.bits? (V : Value → UInt64) (even : Bool) : Pair → Option UInt64
  | .double v => some (if even then (V v).toUInt32 else (V v >>> 32).toUInt32).toUInt64
  | .halves low high => (if even then low else high).bits? V

def Pair.Typed (s : Site) : Pair → Prop
  | .double v => s.Has v .f64
  | .halves low high => low.Typed s ∧ high.Typed s

/-- A half keeps its type in later code. -/
theorem Half.Typed.mono {h : Half} (ht : h.Typed s) (hle : s.Le s') : h.Typed s' := by
  cases h with
  | unloaded => trivial
  | single v => exact Context.Has.mono ht hle
  | bits v => exact Context.Has.mono ht hle

/-- A pair keeps its types in later code. -/
theorem Pair.Typed.mono {p : Pair} (ht : p.Typed s) (hle : s.Le s') : p.Typed s' := by
  cases p with
  | double v => exact Context.Has.mono ht hle
  | halves low high => exact ⟨ht.1.mono hle, ht.2.mono hle⟩

/-- The bits of a half depend on available values alone. -/
theorem Half.bits?_congr {h : Half} {V' : Value → UInt64} (ht : h.Typed s)
    (hV : ∀ v, s.avail v → V' v = V v) : h.bits? V' = h.bits? V := by
  cases h with
  | unloaded => rfl
  | single v => exact congrArg some (hV v ht.avail)
  | bits v => exact congrArg some (hV v ht.avail)

namespace RegTable

/-- The bits that a table gives a unit, where the values are `V`. -/
def bits? (t : RegTable) (V : Value → UInt64) : Tracked → Option UInt64
  | .gpr r => (t.gpr.get r.num).map V
  | .hiLo .hi => t.hi.map V
  | .hiLo .lo => t.lo.map V
  | .fpr f => (t.getPair f).bits? V f.isEven
  | .fcr c => (t.fcr.get c.index).map V
  | .icnt => t.icnt.map V

/-- The table has a value for the unit. -/
def Loaded (t : RegTable) (u : Tracked) : Prop := (t.bits? (fun _ => 0) u).isSome = true

/-- All values of a table may be read at the site and have the types for them. `$0` is loaded. -/
structure Typed (t : RegTable) (s : Site) : Prop where
  gpr : ∀ (r : Gpr) (v : Value), t.gpr.get r.num = some v → s.Has v .i32
  hi : ∀ v, t.hi = some v → s.Has v .i32
  lo : ∀ v, t.lo = some v → s.Has v .i32
  pair : ∀ f, (t.getPair f).Typed s
  fcr : ∀ (c : Fcr) (v : Value), t.fcr.get c.index = some v → s.Has v .i32
  icnt : ∀ v, t.icnt = some v → s.Has v .i64
  zero : t.Loaded (.gpr .zero)

/-- What the table says of the unit is so in the state. -/
structure AgreesAt (t : RegTable) (V : Value → UInt64) (g : State) (u : Tracked) : Prop where
  bits : ∀ y, t.bits? V u = some y → y = g.unit u
  known : ∀ r c, u = .gpr r → t.consts.constant? r = some c → g.reg r = c

/-- What the table says of any unit is so in the state. -/
def Agrees (t : RegTable) (V : Value → UInt64) (g : State) : Prop := ∀ u, t.AgreesAt V g u

/-- Whether a register is loaded does not depend on the values. -/
theorem isSome_bits? (t : RegTable) (V V' : Value → UInt64) (u : Tracked) :
    (t.bits? V u).isSome = (t.bits? V' u).isSome := by
  cases u with
  | fpr f =>
    rw [bits?, bits?]
    cases t.getPair f with
    | double v => rw [Pair.bits?, Pair.bits?, Option.isSome_some, Option.isSome_some]
    | halves low high =>
      rw [Pair.bits?, Pair.bits?]
      cases (if f.isEven then low else high) with
      | unloaded => rfl
      | single v | bits v =>
        rw [Half.bits?, Half.bits?, Option.isSome_some, Option.isSome_some]
  | hiLo h => cases h <;> rw [bits?, bits?, Option.isSome_map, Option.isSome_map]
  | _ => rw [bits?, bits?, Option.isSome_map, Option.isSome_map]

/-- A register is loaded if it has bits under some assignment, which is under all of them. -/
theorem loaded_iff (V : Value → UInt64) : t.Loaded u ↔ ∃ y, t.bits? V u = some y := by
  rw [Loaded, isSome_bits? t _ V, Option.isSome_iff_exists]

/-- A table is loaded where its bits are those of a table that is. -/
theorem Loaded.of_bits? (h : t.Loaded u) (heq : ∀ V, t'.bits? V u = t.bits? V u) : t'.Loaded u := by
  rw [Loaded, heq]
  exact h

/-- A table keeps its types in later code. -/
theorem Typed.mono (ht : t.Typed s) (hle : s.Le s') : t.Typed s' where
  gpr r v h := (ht.gpr r v h).mono hle
  hi v h := (ht.hi v h).mono hle
  lo v h := (ht.lo v h).mono hle
  pair f := (ht.pair f).mono hle
  fcr c v h := (ht.fcr c v h).mono hle
  icnt v h := (ht.icnt v h).mono hle
  zero := ht.zero

/-! ## Values that stay -/

/-- What a table says depends on the values at hand alone. -/
theorem bits?_congr {V' : Value → UInt64} (ht : t.Typed s) (hV : ∀ v, s.avail v → V' v = V v) :
    t.bits? V' u = t.bits? V u := by
  -- What is read from the table is available, and so it is the same in both.
  have hmap : ∀ (o : Option Value), (∀ v, o = some v → ∃ ty, s.Has v ty) → o.map V' = o.map V := by
    intro o ho
    cases o with
    | none => rfl
    | some v =>
      obtain ⟨ty, hv⟩ := ho v rfl
      exact congrArg some (hV v hv.avail)
  cases u with
  | gpr r => exact hmap _ fun v h => ⟨_, ht.gpr r v h⟩
  | hiLo h =>
    cases h with
    | hi => exact hmap _ fun v h => ⟨_, ht.hi v h⟩
    | lo => exact hmap _ fun v h => ⟨_, ht.lo v h⟩
  | fcr i => exact hmap _ fun v h => ⟨_, ht.fcr i v h⟩
  | icnt => exact hmap _ fun v h => ⟨_, ht.icnt v h⟩
  | fpr f =>
    have hp := ht.pair f
    simp only [bits?]
    cases hpair : t.getPair f with
    | double v =>
      rw [hpair] at hp
      simp only [Pair.bits?, hV v hp.avail]
    | halves low high =>
      rw [hpair] at hp
      simp only [Pair.bits?]
      cases f.isEven with
      | true => exact Half.bits?_congr hp.1 hV
      | false => exact Half.bits?_congr hp.2 hV

/-- Agreement at one register depends on available values and that register alone. -/
theorem AgreesAt.congr {V' : Value → UInt64} {g' : State} (h : t.AgreesAt V g u) (ht : t.Typed s)
    (hV : ∀ v, s.avail v → V' v = V v) (hunit : g'.unit u = g.unit u) : t.AgreesAt V' g' u := by
  refine ⟨fun y hy => ?_, fun r c hr hc => ?_⟩
  · rw [hunit]
    exact h.bits y (by rw [← bits?_congr ht hV]; exact hy)
  · subst hr
    have hreg : g'.reg r = g.reg r := toUInt64_inj.1 hunit
    rw [hreg]
    exact h.known r c rfl hc

/-! ## Integer registers -/

/-- Writing a general register changes its bits alone, and the zero register not at all. -/
theorem bits?_setGpr (t : RegTable) (r : Gpr) (v : Value) (known : ConstValue)
    (V : Value → UInt64) (u : Tracked) :
    (t.setGpr r v known).bits? V u =
      if u = .gpr r ∧ r.isZero = false then some (V v) else t.bits? V u := by
  unfold setGpr
  by_cases hz : r.isZero = true
  · simp [hz]
  · simp only [hz, Bool.false_eq_true, if_false, and_true]
    cases u with
    | gpr r' =>
      simp only [bits?, get_set, Gpr.num_inj, Tracked.gpr.injEq]
      split <;> rfl
    | hiLo h => cases h <;> simp [bits?]
    | _ => simp [bits?, getPair]

/-- Writing a general register changes what is known of it alone. -/
theorem constant?_setGpr (t : RegTable) (r r' : Gpr) (v : Value) (known : ConstValue) :
    (t.setGpr r v known).consts.constant? r' =
      if r' = r ∧ r.isZero = false then known.constant? else t.consts.constant? r' := by
  unfold setGpr
  by_cases hz : r.isZero = true
  · simp [hz]
  · simp only [hz, Bool.false_eq_true, if_false, and_true, ConstRegs.constant?, ConstRegs.set,
      ConstRegs.get, get_set, Gpr.num_inj]
    split <;> rfl

/-- Writing `hi` or `lo` changes its bits alone. -/
theorem bits?_setHiLo (t : RegTable) (h : HiLo) (v : Value) (V : Value → UInt64) (u : Tracked) :
    (t.setHiLo h v).bits? V u = if u = .hiLo h then some (V v) else t.bits? V u := by
  cases u with
  | hiLo h' => cases h <;> cases h' <;> simp [setHiLo, bits?]
  | _ => cases h <;> simp [setHiLo, bits?, getPair]

/-- Writing a control register changes its bits alone. -/
theorem bits?_setFcr (t : RegTable) (c : Fcr) (v : Value) (V : Value → UInt64) (u : Tracked) :
    (t.setFcr c v).bits? V u = if u = .fcr c then some (V v) else t.bits? V u := by
  cases u with
  | fcr c' =>
    simp only [setFcr, bits?, get_set, Fcr.index_inj, Tracked.fcr.injEq]
    split <;> rfl
  | hiLo h => cases h <;> simp [setFcr, bits?]
  | _ => simp [setFcr, bits?, getPair]

/-- Setting the count changes nothing else. -/
theorem bits?_setIcnt (t : RegTable) (v : Value) (V : Value → UInt64) (u : Tracked) :
    ({ t with icnt := some v } : RegTable).bits? V u =
      if u = .icnt then some (V v) else t.bits? V u := by
  cases u with
  | hiLo h => cases h <;> simp [bits?]
  | _ => simp [bits?, getPair]

/-- The value of a loaded register. -/
theorem gives_getGpr (ht : t.Typed s) (h : t.Loaded (.gpr r)) :
    Gives s (liftM (t.getGpr r)) .i32 fun V _ y =>
      ∀ g : State, t.Agrees V g → y = (g.reg r).toUInt64 := by
  unfold Loaded bits? at h
  cases hv : t.gpr.get r.num with
  | none => simp [hv] at h
  | some v =>
    have hget : t.getGpr r = .ok v := by simp [getGpr, loaded, hv]
    refine Yields.ok hget (ht.gpr r v hv) fun V m => ⟨rfl, fun g hg => ?_⟩
    exact (hg (.gpr r)).bits _ (by simp [bits?, hv])

/-- Reading `hi` or `lo` gives what the guest has there. -/
theorem gives_getHiLo {h : HiLo} (ht : t.Typed s) (hload : t.Loaded (.hiLo h)) :
    Gives s (liftM (t.getHiLo h)) .i32 fun V _ y =>
      ∀ g : State, t.Agrees V g → y = (g.hiLo h).toUInt64 := by
  unfold Loaded at hload
  cases h with
  | hi =>
    cases hv : t.hi with
    | none => simp [bits?, hv] at hload
    | some v =>
      refine Yields.ok (a := v) (by simp [getHiLo, loaded, hv]) (ht.hi v hv) fun V m =>
        ⟨rfl, fun g hg => ?_⟩
      exact (hg (.hiLo .hi)).bits _ (by simp [bits?, hv])
  | lo =>
    cases hv : t.lo with
    | none => simp [bits?, hv] at hload
    | some v =>
      refine Yields.ok (a := v) (by simp [getHiLo, loaded, hv]) (ht.lo v hv) fun V m =>
        ⟨rfl, fun g hg => ?_⟩
      exact (hg (.hiLo .lo)).bits _ (by simp [bits?, hv])

/-- Reading a control register gives what the guest has there. -/
theorem gives_getFcr {c : Fcr} (ht : t.Typed s) (h : t.Loaded (.fcr c)) :
    Gives s (liftM (t.getFcr c)) .i32 fun V _ y =>
      ∀ g : State, t.Agrees V g → y = (g.fcrBits c).toUInt64 := by
  unfold Loaded bits? at h
  cases hv : t.fcr.get c.index with
  | none => simp [hv] at h
  | some v =>
    refine Yields.ok (a := v) (by simp [getFcr, loaded, hv]) (ht.fcr c v hv) fun V m =>
      ⟨rfl, fun g hg => ?_⟩
    exact (hg (.fcr c)).bits _ (by simp [bits?, hv])

/-- Reading the count gives the guest's. -/
theorem gives_getIcnt (ht : t.Typed s) (h : t.Loaded .icnt) :
    Gives s (liftM t.getIcnt) .i64 fun V _ y => ∀ g : State, t.Agrees V g → y = g.icnt := by
  unfold Loaded bits? at h
  cases hv : t.icnt with
  | none => simp [hv] at h
  | some v =>
    refine Yields.ok (a := v) (by simp [getIcnt, loaded, hv]) (ht.icnt v hv) fun V m =>
      ⟨rfl, fun g hg => ?_⟩
    exact (hg .icnt).bits _ (by simp [bits?, hv])

/-- Two tables that say the same of a unit agree with a state there alike. -/
theorem AgreesAt.of_unit {t' : RegTable} {g' : State} (h : t.AgreesAt V g u)
    (hbits : t'.bits? V u = t.bits? V u) (hunit : g'.unit u = g.unit u)
    (hknown : ∀ r, u = .gpr r → t'.consts.constant? r = t.consts.constant? r) :
    t'.AgreesAt V g' u := by
  refine ⟨fun y hy => ?_, fun r c hr hc => ?_⟩
  · rw [hunit]
    exact h.bits y (hbits ▸ hy)
  · subst hr
    have hreg : g'.reg r = g.reg r := toUInt64_inj.1 hunit
    rw [hreg]
    exact h.known r c rfl (hknown r rfl ▸ hc)

/-- Writing a general register in table and state alike. -/
theorem Agrees.setGpr {known : ConstValue} (h : t.Agrees V g) (r : Gpr) (hv : V v = x.toUInt64)
    (hknown : ∀ c, known.constant? = some c → x = c) :
    (t.setGpr r v known).Agrees V (g.setReg r x) := by
  intro u
  by_cases hu : u = .gpr r ∧ r.isZero = false
  · obtain ⟨rfl, hz⟩ := hu
    refine ⟨fun y hy => ?_, fun r' c hr hc => ?_⟩
    · rw [bits?_setGpr, if_pos ⟨rfl, hz⟩] at hy
      rw [State.unit_setReg, if_pos ⟨rfl, hz⟩, ← Option.some.inj hy, hv]
    · cases hr
      rw [constant?_setGpr, if_pos ⟨rfl, hz⟩] at hc
      rw [State.reg_setReg, if_pos ⟨rfl, hz⟩]
      exact hknown c hc
  · refine (h u).of_unit (by rw [bits?_setGpr, if_neg hu]) (by rw [State.unit_setReg, if_neg hu]) ?_
    rintro r' rfl
    rw [constant?_setGpr, if_neg (by simpa using hu)]

/-- Writing `$hi` or `$lo` in table and state alike. -/
theorem Agrees.setHiLo (h : t.Agrees V g) (i : HiLo) (hv : V v = x.toUInt64) :
    (t.setHiLo i v).Agrees V (g.setHiLo i x) := by
  intro u
  have hconsts : (t.setHiLo i v).consts = t.consts := by cases i <;> rfl
  by_cases hu : u = .hiLo i
  · subst hu
    refine ⟨fun y hy => ?_, fun r c hr => by cases hr⟩
    rw [bits?_setHiLo, if_pos rfl] at hy
    rw [State.unit_setHiLo, if_pos rfl, ← Option.some.inj hy, hv]
  · exact (h u).of_unit (by rw [bits?_setHiLo, if_neg hu]) (by rw [State.unit_setHiLo, if_neg hu])
      fun r _ => by rw [hconsts]

/-- Writing a control register in table and state alike. -/
theorem Agrees.setFcr (h : t.Agrees V g) (c : Fcr) (hv : V v = x.toUInt64) :
    (t.setFcr c v).Agrees V (g.setFcr c x) := by
  intro u
  by_cases hu : u = .fcr c
  · subst hu
    refine ⟨fun y hy => ?_, fun r c hr => by cases hr⟩
    rw [bits?_setFcr, if_pos rfl] at hy
    rw [State.unit_setFcr, if_pos rfl, ← Option.some.inj hy, hv]
  · exact (h u).of_unit (by rw [bits?_setFcr, if_neg hu]) (by rw [State.unit_setFcr, if_neg hu])
      fun r _ => rfl

/-- Memory is not in the table. -/
theorem Agrees.of_mem (h : t.Agrees V g) (mem : Machine.Memory) :
    t.Agrees V { g with mem := mem } := fun u =>
  (h u).of_unit rfl (State.unit_mem g mem u) fun _ _ => rfl

/-- Nor is the program counter. -/
theorem Agrees.of_pc (h : t.Agrees V g) (pc : UInt32) : t.Agrees V { g with pc := pc } := fun u =>
  (h u).of_unit rfl (State.unit_pc g pc u) fun _ _ => rfl

/-- What a table is for the code after it: typed, and with no unit lost that `t` has. -/
structure Keeps (t : RegTable) (t' : RegTable) (s : Site) : Prop where
  typed : t'.Typed s
  loaded : ∀ u, t.Loaded u → t'.Loaded u

/-- A table keeps what it has. -/
theorem Keeps.refl (ht : t.Typed s) : t.Keeps t s := ⟨ht, fun _ h => h⟩

/-- What is kept in two steps is kept. -/
theorem Keeps.trans {t'' : RegTable} (h : t.Keeps t' s) (h' : t'.Keeps t'' s') :
    t.Keeps t'' s' := ⟨h'.typed, fun u hu => h'.loaded u (h.loaded u hu)⟩

/-- A table that gains the value of one unit keeps the others. -/
private theorem loaded_of_gain {p : Prop} [Decidable p] (h : t.Loaded u)
    (heq : ∀ V, t'.bits? V u = if p then some (V v) else t.bits? V u) : t'.Loaded u := by
  rw [Loaded, heq]
  split
  · rfl
  · exact h

/-- Writing a general register keeps the others loaded. -/
theorem keeps_setGpr (ht : t.Typed s) (r : Gpr) (known : ConstValue) (hv : s.Has v .i32) :
    t.Keeps (t.setGpr r v known) s := by
  have hloaded : ∀ u, t.Loaded u → (t.setGpr r v known).Loaded u := fun u hu =>
    loaded_of_gain hu fun V => bits?_setGpr t r v known V u
  refine ⟨?_, hloaded⟩
  unfold setGpr at hloaded ⊢
  split
  · exact ht
  · rename_i hz
    simp only [hz, Bool.false_eq_true, if_false] at hloaded
    refine ⟨fun r' w hw => ?_, ht.hi, ht.lo, ht.pair, ht.fcr, ht.icnt, hloaded _ ht.zero⟩
    rw [get_set] at hw
    split at hw
    · cases hw
      exact hv
    · exact ht.gpr r' w hw

/-- Writing `hi` or `lo` keeps the others loaded. -/
theorem keeps_setHiLo (ht : t.Typed s) (h : HiLo) (hv : s.Has v .i32) :
    t.Keeps (t.setHiLo h v) s := by
  have hloaded : ∀ u, t.Loaded u → (t.setHiLo h v).Loaded u := fun u hu =>
    loaded_of_gain hu fun V => bits?_setHiLo t h v V u
  refine ⟨?_, hloaded⟩
  cases h with
  | hi =>
    refine ⟨ht.gpr, fun w hw => ?_, ht.lo, ht.pair, ht.fcr, ht.icnt, hloaded _ ht.zero⟩
    cases hw
    exact hv
  | lo =>
    refine ⟨ht.gpr, ht.hi, fun w hw => ?_, ht.pair, ht.fcr, ht.icnt, hloaded _ ht.zero⟩
    cases hw
    exact hv

/-- Writing a control register keeps the others loaded. -/
theorem keeps_setFcr (ht : t.Typed s) (c : Fcr) (hv : s.Has v .i32) : t.Keeps (t.setFcr c v) s := by
  have hloaded : ∀ u, t.Loaded u → (t.setFcr c v).Loaded u := fun u hu =>
    loaded_of_gain hu fun V => bits?_setFcr t c v V u
  refine ⟨⟨ht.gpr, ht.hi, ht.lo, ht.pair, fun c' w hw => ?_, ht.icnt, hloaded _ ht.zero⟩, hloaded⟩
  simp only [setFcr, get_set] at hw
  split at hw
  · cases hw
    exact hv
  · exact ht.fcr c' w hw

/-- Setting the count keeps the registers loaded. -/
theorem keeps_setIcnt (ht : t.Typed s) (hv : s.Has v .i64) :
    t.Keeps { t with icnt := some v } s := by
  have hloaded : ∀ u, t.Loaded u → ({ t with icnt := some v } : RegTable).Loaded u := fun u hu =>
    loaded_of_gain hu fun V => bits?_setIcnt t v V u
  refine ⟨⟨ht.gpr, ht.hi, ht.lo, ht.pair, ht.fcr, fun w hw => ?_, hloaded _ ht.zero⟩, hloaded⟩
  cases hw
  exact hv

/-! ## Floating-point registers -/

/-- Registers are in one pair if they have the same base. -/
theorem pairIndex_eq_iff {f f' : Fpr} : pairIndex f' = pairIndex f ↔ f'.base = f.base := by
  obtain ⟨n⟩ := f
  obtain ⟨n'⟩ := f'
  simp only [pairIndex, Fpr.base, Fpr.ofNat, Fpr.mk.injEq, Fin.ext_iff, Fin.val_ofNat]
  omega

/-- Setting a pair changes that pair alone. -/
theorem getPair_setPair (t : RegTable) (f f' : Fpr) (p : Pair) :
    (t.setPair f p).getPair f' = if f'.base = f.base then p else t.getPair f' := by
  simp only [setPair, getPair, get_set, pairIndex_eq_iff]

/-- Setting a pair changes the bits of its two registers alone. -/
theorem bits?_setPair (t : RegTable) (f f' : Fpr) (p : Pair) (V : Value → UInt64) :
    (t.setPair f p).bits? V (.fpr f') =
      if f'.base = f.base then p.bits? V f'.isEven else t.bits? V (.fpr f') := by
  simp only [bits?, getPair_setPair]
  split <;> rfl

/-- Setting a pair changes no register of another kind. -/
theorem bits?_setPair_of_ne (t : RegTable) (f : Fpr) (p : Pair) (V : Value → UInt64)
    (h : ∀ f', u ≠ .fpr f') : (t.setPair f p).bits? V u = t.bits? V u := by
  cases u with
  | fpr f' => exact absurd rfl (h f')
  | hiLo i => cases i <;> rfl
  | _ => rfl

/-- The even register of a pair is its base. -/
theorem isEven_iff (f : Fpr) : f.isEven = true ↔ f = f.base := by
  obtain ⟨n⟩ := f
  revert n
  decide

/-- The pair of a loaded register. -/
theorem getPair_base (t : RegTable) {f f' : Fpr} (h : f'.base = f.base) :
    t.getPair f' = t.getPair f := by
  unfold getPair
  rw [pairIndex_eq_iff.2 h]

/-- The low word of a double. -/
theorem gives_lowBits (hv : s.Has v .f64) :
    Gives s (liftM (lowBits v)) .i32 fun V _ y => y = (V v).toUInt32.toUInt64 := by
  simp only [lowBits, liftBuild_bind]
  refine Gives.then (gives_cast hv (by rfl)) fun bits s₁ _ hbits => ?_
  refine (gives_cast hbits (by rfl)).imp fun V m y hy hb => ?_
  rw [hy, hb, eval_bitcast64 _ rfl, eval_trunc]

/-- The high word of a double. -/
theorem gives_highBits (hv : s.Has v .f64) :
    Gives s (liftM (highBits v)) .i32 fun V _ y => y = (V v >>> 32).toUInt32.toUInt64 := by
  simp only [highBits, liftM_bind]
  refine Gives.then (gives_cast hv (by rfl)) fun bits s₁ _ hbits => ?_
  refine Gives.then (gives_const .i64 32) fun amount s₂ hle₂ hamount => ?_
  refine Gives.then (gives_binary (hbits.mono hle₂) hamount (by rfl)) fun high s₃ _ hhigh => ?_
  refine (gives_cast hhigh (by rfl)).imp fun V m y hy hh ha hb => ?_
  rw [hy, hh, ha, hb, eval_bitcast64 _ rfl, and_mask64 _ rfl, eval_lshr64, eval_trunc]

/-- The word of a register that is held as a half. -/
theorem gives_halfBits {h : Half} (ht : h.Typed s) (hload : h ≠ .unloaded) :
    Gives s (halfBits f h) .i32 fun V _ y =>
      ∀ x : UInt32, h.bits? V = some x.toUInt64 → y = x.toUInt64 := by
  cases h with
  | unloaded => exact absurd rfl hload
  | bits v => exact Yields.pure ht fun V m => ⟨rfl, fun x hx => Option.some.inj hx⟩
  | single v =>
    refine (gives_cast ht (by rfl)).imp fun V m y hy x hx => ?_
    rw [hy, Option.some.inj hx, eval_bitcast32 _ rfl]

/-- The half of a pair that a loaded register is held as. -/
theorem ne_unloaded {low high : Half} (h : t.Loaded (.fpr f)) (hp : t.getPair f = .halves low high) :
    (if f.isEven then low else high) ≠ .unloaded := by
  intro heq
  rw [Loaded, bits?, hp, Pair.bits?, heq] at h
  cases h

/-- The word in a floating-point register. -/
theorem gives_readBits (ht : t.Typed s) (h : t.Loaded (.fpr f)) :
    Gives s (t.readBits f) .i32 fun V _ y =>
      ∀ g : State, t.Agrees V g → y = (g.fprBits f).toUInt64 := by
  have hpair := ht.pair f
  unfold readBits
  cases hp : t.getPair f with
  | double v =>
    rw [hp] at hpair
    have hbits : ∀ V, t.bits? V (.fpr f) =
        some (if f.isEven then (V v).toUInt32 else (V v >>> 32).toUInt32).toUInt64 := fun V => by
      rw [bits?, hp, Pair.bits?]
    by_cases he : f.isEven = true
    · simp only [he, if_true] at hbits ⊢
      refine (gives_lowBits hpair).imp fun V m y hy g hg => ?_
      rw [hy]
      exact (hg (.fpr f)).bits _ (hbits V)
    · simp only [he, if_false, Bool.false_eq_true] at hbits ⊢
      refine (gives_highBits hpair).imp fun V m y hy g hg => ?_
      rw [hy]
      exact (hg (.fpr f)).bits _ (hbits V)
  | halves low high =>
    rw [hp] at hpair
    have htyped : (if f.isEven then low else high).Typed s := by
      split
      · exact hpair.1
      · exact hpair.2
    refine (gives_halfBits htyped (ne_unloaded h hp)).imp fun V m y hy g hg => hy _ ?_
    obtain ⟨z, hz⟩ := (loaded_iff V).1 h
    have hunit := (hg (.fpr f)).bits z hz
    rw [bits?, hp, Pair.bits?] at hz
    rw [hz, hunit]
    rfl

/-- The single in a floating-point register. -/
theorem gives_readSingle (ht : t.Typed s) (h : t.Loaded (.fpr f)) :
    Gives s (t.readSingle f) .f32 fun V _ y =>
      ∀ g : State, t.Agrees V g → y = (g.fprBits f).toUInt64 := by
  -- A register that is not held as a single is read as a word.
  have hword : Gives s (do liftM (Build.cast .bitcast (← t.readBits f) .f32)) .f32 fun V _ y =>
      ∀ g : State, t.Agrees V g → y = (g.fprBits f).toUInt64 := by
    refine Gives.then (gives_readBits ht h) fun bits s₁ _ hbits => ?_
    refine (gives_cast hbits (by rfl)).imp fun V m y hy hb g hg => ?_
    rw [hy, hb g hg, eval_bitcast32 _ rfl]
  have hpair := ht.pair f
  unfold readSingle
  cases hp : t.getPair f with
  | double v => exact hword
  | halves low high =>
    rw [hp] at hpair
    have htyped : (if f.isEven then low else high).Typed s := by
      split
      · exact hpair.1
      · exact hpair.2
    have hbits : ∀ V, t.bits? V (.fpr f) = (if f.isEven then low else high).bits? V := fun V => by
      rw [bits?, hp, Pair.bits?]
    simp only
    cases hh : (if f.isEven then low else high) with
    | single v =>
      rw [hh] at htyped hbits
      exact Yields.pure htyped fun V m => ⟨rfl, fun g hg => (hg (.fpr f)).bits _ (hbits V)⟩
    | unloaded => exact hword
    | bits v => exact hword

/-- The double in the pair of a floating-point register. -/
theorem gives_readDouble (ht : t.Typed s) (hlow : t.Loaded (.fpr f.base))
    (hhigh : t.Loaded (.fpr f.base.partner)) :
    Gives s (t.readDouble f) .f64 fun V _ y => ∀ g : State, t.Agrees V g → y = g.pairBits f := by
  have hpair := ht.pair f
  unfold readDouble
  cases hp : t.getPair f with
  | double v =>
    rw [hp] at hpair
    refine Yields.pure hpair fun V m => ⟨rfl, fun g hg => ?_⟩
    -- Both registers of the pair read from the double, one half each.
    have hbase : t.getPair f.base = .double v := (t.getPair_base (Fpr.base_base f)).trans hp
    have hpartner : t.getPair f.base.partner = .double v :=
      (t.getPair_base (Fpr.base_partner f)).trans hp
    have heven : f.base.isEven = true := Fpr.isEven_base f
    have hodd : f.base.partner.isEven = false := by rw [Fpr.isEven_partner, heven, Bool.not_true]
    have h₁ := (hg (.fpr f.base)).bits _ (by rw [bits?, hbase, Pair.bits?, heven])
    have h₂ := (hg (.fpr f.base.partner)).bits _ (by rw [bits?, hpartner, Pair.bits?, hodd])
    simp only [if_true] at h₁
    simp only [Bool.false_eq_true, if_false] at h₂
    rw [← join_split (V v), h₁, h₂]
    rfl
  | halves low high =>
    -- The high half is shifted and joined with the low one.
    refine Gives.then (gives_readBits ht hlow) fun lo s₁ hle₁ hlo => ?_
    refine Gives.then (gives_readBits (ht.mono hle₁) hhigh) fun hi s₂ hle₂ hhi => ?_
    refine Gives.then (gives_cast (hlo.mono hle₂) (by rfl)) fun lo' s₃ hle₃ hlo' => ?_
    refine Gives.then (gives_cast (hhi.mono hle₃) (by rfl)) fun hi' s₄ hle₄ hhi' => ?_
    refine Gives.then (gives_const .i64 32) fun amount s₅ hle₅ hamount => ?_
    refine Gives.then (gives_binary (hhi'.mono hle₅) hamount (by rfl)) fun shifted s₆ hle₆ hs => ?_
    refine Gives.then (gives_binary hs (hlo'.mono (hle₄.trans (hle₅.trans hle₆))) (by rfl))
      fun bits s₇ hle₇ hbits => ?_
    refine (gives_cast hbits (by rfl)).imp fun V m y hy h₇ h₆ h₅ h₄ h₃ h₂ h₁ g hg => ?_
    rw [hy, h₇, h₆, h₅, h₄, h₃, h₂ g hg, h₁ g hg, and_mask64 _ rfl, eval_zext, eval_zext,
      eval_shl64, eval_or64, eval_bitcast64 _ rfl]
    rfl

/-- A pair may take the place of another one if no register is lost by it. -/
theorem keeps_setPair {p : Pair} (ht : t.Typed s) (f : Fpr) (hp : p.Typed s)
    (hload : ∀ f', f'.base = f.base → t.Loaded (.fpr f') →
      (p.bits? (fun _ => 0) f'.isEven).isSome = true) : t.Keeps (t.setPair f p) s := by
  refine ⟨⟨ht.gpr, ht.hi, ht.lo, fun f' => ?_, ht.fcr, ht.icnt, ht.zero⟩, fun u hu => ?_⟩
  · rw [getPair_setPair]
    split
    · exact hp
    · exact ht.pair f'
  · cases u with
    | fpr f' =>
      rw [Loaded, bits?_setPair]
      split
      · rename_i hf'
        exact hload f' hf' hu
      · exact hu
    | _ => exact hu.of_bits? fun V => bits?_setPair_of_ne t f p V (by simp)

/-- The two registers of a pair differ in parity. -/
theorem isEven_eq_iff {f f' : Fpr} (h : f'.base = f.base) : f'.isEven = f.isEven ↔ f' = f := by
  rw [Bool.eq_iff_iff, isEven_iff, isEven_iff]
  rcases Fpr.eq_base_or_partner f with hf | hf <;> rcases Fpr.eq_base_or_partner f' with hf' | hf' <;>
    rw [h] at hf' <;> rw [hf, hf'] <;> simp [Fpr.partner_ne_base, (Fpr.partner_ne_base _).symm]

/-- Replacing one register of a pair, the other one keeping its bits. -/
private theorem bits?_half {p : Pair} {y : Option UInt64}
    (hp : ∀ e, p.bits? V e = if e = f.isEven then y else (t.getPair f).bits? V e) (u : Tracked) :
    (t.setPair f p).bits? V u = if u = .fpr f then y else t.bits? V u := by
  cases u with
  | fpr f' =>
    rw [bits?_setPair]
    by_cases hb : f'.base = f.base
    · rw [if_pos hb, hp]
      simp only [isEven_eq_iff hb, Tracked.fpr.injEq]
      rw [bits?, t.getPair_base hb]
    · have hne : Tracked.fpr f' ≠ .fpr f := fun heq => hb (by rw [Tracked.fpr.inj heq])
      rw [if_neg hb, if_neg hne]
  | _ =>
    rw [bits?_setPair_of_ne t f p V (by simp), if_neg (by simp)]

/-- Writing one half loads its register and keeps the other one as it was. -/
private theorem keeps_half {p : Pair} (ht : t.Typed s) (htyped : p.Typed s)
    (hp : ∀ e, (p.bits? (fun _ => 0) e).isSome = true ↔
      e = f.isEven ∨ ((t.getPair f).bits? (fun _ => 0) e).isSome = true) :
    t.Keeps (t.setPair f p) s ∧ (t.setPair f p).Loaded (.fpr f) := by
  refine ⟨keeps_setPair ht f htyped fun f' hf' hload => (hp _).2 (.inr ?_), ?_⟩
  · rw [Loaded, bits?, t.getPair_base hf'] at hload
    exact hload
  · rw [Loaded, bits?_setPair, if_pos rfl]
    exact (hp _).2 (.inl rfl)

/-- Writing one register of a pair keeps the bits of all others. -/
theorem yields_writeHalf {h : Half} (ht : t.Typed s) (hh : h.Typed s) (hload : h ≠ .unloaded) :
    Yields s (t.writeHalf f h) (fun t' s' => t.Keeps t' s' ∧ t'.Loaded (.fpr f)) fun t' V m m' =>
      m' = m ∧ t'.consts = t.consts ∧
        ∀ u, t'.bits? V u = if u = .fpr f then h.bits? V else t.bits? V u := by
  -- Without it the write could take a register away.
  have hsome : ∀ V, (h.bits? V).isSome = true := by
    intro V
    cases h with
    | unloaded => exact absurd rfl hload
    | single | bits => rfl
  have hpair := ht.pair f
  unfold writeHalf
  cases hp : t.getPair f with
  | halves low high =>
    rw [hp] at hpair
    have hbits : ∀ V e, (if f.isEven then Pair.halves h high else .halves low h).bits? V e =
        if e = f.isEven then h.bits? V else (t.getPair f).bits? V e := by
      intro V e
      rw [hp]
      cases f.isEven <;> cases e <;> rfl
    refine Yields.pure (keeps_half ht ?_ fun e => ?_) fun V m => ⟨rfl, rfl, bits?_half (hbits V)⟩
    · cases f.isEven
      · exact ⟨hpair.1, hh⟩
      · exact ⟨hh, hpair.2⟩
    · rw [hbits]
      by_cases he : e = f.isEven <;> simp [he, hsome]
  -- The other half is taken out of the double before that is lost.
  | double v =>
    rw [hp] at hpair
    by_cases he : f.isEven = true
    · simp only [he, if_true]
      refine Gives.bind (gives_highBits hpair) fun hi s₁ hle hhi => ?_
      refine Yields.pure (keeps_half (ht.mono hle) ⟨hh.mono hle, hhi⟩ fun e => ?_) fun V m hV =>
        ⟨rfl, rfl, bits?_half fun e => ?_⟩
      · rw [hp, he]
        cases e <;> simp [Pair.bits?, hsome]
      · rw [hp, he]
        cases e <;> simp [Pair.bits?, hV]
    · simp only [he, if_false, Bool.false_eq_true]
      refine Gives.bind (gives_lowBits hpair) fun lo s₁ hle hlo => ?_
      refine Yields.pure (keeps_half (ht.mono hle) ⟨hlo, hh.mono hle⟩ fun e => ?_) fun V m hV =>
        ⟨rfl, rfl, bits?_half fun e => ?_⟩
      · rw [hp]
        cases e <;> simp [Pair.bits?, hsome, he]
      · rw [hp]
        cases e <;> simp [Pair.bits?, hV, he]

/-- Writing a double writes both registers of its pair. -/
theorem bits?_writeDouble (t : RegTable) (f : Fpr) (v : Value) (V : Value → UInt64) (u : Tracked) :
    (t.writeDouble f v).bits? V u =
      if u = .fpr f.base.partner then some (V v >>> 32).toUInt32.toUInt64
      else if u = .fpr f.base then some (V v).toUInt32.toUInt64 else t.bits? V u := by
  unfold writeDouble
  cases u with
  | fpr f' =>
    rw [bits?_setPair]
    by_cases hb : f'.base = f.base
    · rw [if_pos hb]
      rcases Fpr.eq_base_or_partner f' with heq | heq
      · rw [hb] at heq
        have heven : f'.isEven = true := by rw [heq, Fpr.isEven_base]
        have hne : f' ≠ f.base.partner := heq ▸ (Fpr.partner_ne_base f).symm
        simp only [Pair.bits?, heven, if_true, Tracked.fpr.injEq, if_neg hne, if_pos heq]
      · rw [hb] at heq
        have hodd : f'.isEven = false := by
          rw [heq, Fpr.isEven_partner, Fpr.isEven_base, Bool.not_true]
        simp only [Pair.bits?, hodd, Bool.false_eq_true, if_false, Tracked.fpr.injEq, if_pos heq]
    · have hpartner : f' ≠ f.base.partner := fun heq => hb (by rw [heq, Fpr.base_partner])
      have hbase : f' ≠ f.base := fun heq => hb (by rw [heq, Fpr.base_base])
      simp only [if_neg hb, Tracked.fpr.injEq, if_neg hpartner, if_neg hbase]
  | _ =>
    rw [bits?_setPair_of_ne t f _ V (by simp), if_neg (by simp), if_neg (by simp)]

/-- Writing a double keeps all registers loaded. -/
theorem keeps_writeDouble (ht : t.Typed s) (hv : s.Has v .f64) : t.Keeps (t.writeDouble f v) s :=
  keeps_setPair ht f hv fun _ _ _ => rfl

/-- A table agrees with a state at a unit that is no general register if it has its bits. -/
theorem AgreesAt.of_bits (hbits : t.bits? V u = some (g.unit u)) (hu : ∀ r, u ≠ .gpr r) :
    t.AgreesAt V g u :=
  ⟨fun _ hy => Option.some.inj (hy.symm.trans hbits), fun r _ hr => absurd hr (hu r)⟩

/-- Writing a floating-point register in table and state alike. -/
theorem Agrees.setFprBits {t' : RegTable} (h : t.Agrees V g) (hconsts : t'.consts = t.consts)
    (hbits : ∀ u, t'.bits? V u = if u = .fpr f then some x.toUInt64 else t.bits? V u) :
    t'.Agrees V (g.setFprBits f x) := by
  intro u
  have hunit := State.unit_setFprBits g f x u
  by_cases hu : u = .fpr f
  · refine .of_bits ?_ (by simp [hu])
    rw [hbits, hunit, if_pos hu, if_pos hu]
  · exact (h u).of_unit (by rw [hbits, if_neg hu]) (by rw [hunit, if_neg hu])
      fun r _ => by rw [hconsts]

/-- Writing a pair in table and state alike. -/
theorem Agrees.setPairBits (h : t.Agrees V g) (f : Fpr) (v : Value) :
    (t.writeDouble f v).Agrees V (g.setPairBits f (V v)) := by
  intro u
  have hbits := bits?_writeDouble t f v V u
  have hunit := State.unit_setPairBits g f (V v) u
  by_cases hp : u = .fpr f.base.partner
  · refine .of_bits ?_ (by simp [hp])
    rw [hbits, hunit, if_pos hp, if_pos hp]
  · by_cases hb : u = .fpr f.base
    · refine .of_bits ?_ (by simp [hb])
      rw [hbits, hunit, if_neg hp, if_neg hp, if_pos hb, if_pos hb]
    · exact (h u).of_unit (by rw [hbits, if_neg hp, if_neg hb]) (by rw [hunit, if_neg hp, if_neg hb])
        fun _ _ => rfl

/-! ## Formats -/

/-- The datum in a register, read in a format. -/
theorem gives_readFp {fmt : FpFormat} (ht : t.Typed s)
    (h : ∀ u ∈ Tracked.units (.fpr f fmt), t.Loaded u) :
    Gives s (t.readFp fmt f) (fpTy fmt) fun V _ y =>
      ∀ g : State, t.Agrees V g → y = g.fpBits fmt f := by
  cases fmt with
  | single => exact gives_readSingle ht (h _ (by simp [Tracked.units]))
  | double =>
    exact gives_readDouble ht (h _ (by simp [Tracked.units])) (h _ (by simp [Tracked.units]))

/-- Writing a word in table and state alike, as a single or as bits. -/
theorem yields_writeWord {h : Half} (ht : t.Typed s) (hh : h.Typed s)
    (hbits : ∀ V, h.bits? V = some (V v)) :
    Yields s (t.writeHalf f h) (fun t' s' => t.Keeps t' s' ∧ t'.Loaded (.fpr f)) fun t' V m m' =>
      m' = m ∧ ∀ (g : State) (x : UInt32), t.Agrees V g → V v = x.toUInt64 →
        t'.Agrees V (g.setFprBits f x) := by
  have hload : h ≠ .unloaded := by
    rintro rfl
    cases hbits fun _ => 0
  refine (yields_writeHalf ht hh hload).imp (fun _ _ _ h => h) ?_
  rintro t' V m m' ⟨hm, hconsts, hunits⟩
  refine ⟨hm, fun g x hg hx => hg.setFprBits hconsts fun u => ?_⟩
  rw [hunits, hbits, hx]

/-- Writing a datum in table and state alike. -/
theorem yields_writeFp {fmt : FpFormat} (ht : t.Typed s) (hv : s.Has v (fpTy fmt)) :
    Yields s (t.writeFp fmt f v) (fun t' s' => t.Keeps t' s') fun t' V m m' =>
      m' = m ∧ ∀ g : State, t.Agrees V g → (fmt = .single → ∃ x : UInt32, V v = x.toUInt64) →
        t'.Agrees V (g.setFpBits fmt f (V v)) := by
  cases fmt with
  | single =>
    refine (yields_writeWord (h := .single v) ht hv fun _ => rfl).imp (fun _ _ _ h => h.1) ?_
    rintro t' V m m' ⟨hm, hset⟩
    refine ⟨hm, fun g hg hx => ?_⟩
    obtain ⟨x, hx⟩ := hx rfl
    have hlow : (V v).toUInt32 = x := by rw [hx]; simp
    rw [State.setFpBits, hlow]
    exact hset g x hg hx
  | double =>
    exact Yields.pure (keeps_writeDouble ht hv) fun V m =>
      ⟨rfl, fun g hg _ => hg.setPairBits f v⟩

/-- Writing a word in table and state alike. -/
theorem yields_writeBits (ht : t.Typed s) (hv : s.Has v .i32) :
    Yields s (t.writeBits f v) (fun t' s' => t.Keeps t' s') fun t' V m m' =>
      m' = m ∧ ∀ (g : State) (x : UInt32), t.Agrees V g → V v = x.toUInt64 →
        t'.Agrees V (g.setFprBits f x) :=
  (yields_writeWord (h := .bits v) ht hv fun _ => rfl).imp (fun _ _ _ h => h.1) fun _ _ _ _ h => h

/-! ## Tracked registers -/

variable {fp : FpTouched} {reg : Tracked}

/-- The value of a tracked register in the form it has at the boundaries of blocks. -/
theorem gives_get (ht : t.Typed s) (h : ∀ u ∈ Tracked.parts fp reg, t.Loaded u) :
    Gives s (t.get fp reg) (reg.ty fp) fun V _ y =>
      ∀ g : State, t.Agrees V g → y = g.kept fp reg := by
  cases reg with
  | gpr r => exact gives_getGpr ht (h _ (by simp [Tracked.parts]))
  | hiLo i => exact gives_getHiLo ht (h _ (by simp [Tracked.parts]))
  | fcr c => exact gives_getFcr ht (h _ (by simp [Tracked.parts]))
  | icnt => exact gives_getIcnt ht (h _ (by simp [Tracked.parts]))
  | fpr f =>
    simp only [RegTable.get, Tracked.ty, State.kept]
    cases hform : fp.form f with
    | double =>
      have hlow := h (.fpr f.base) (by simp [Tracked.parts, hform])
      have hhigh := h (.fpr f.base.partner) (by simp [Tracked.parts, hform])
      simpa using gives_readDouble ht hlow hhigh
    | single =>
      have hload := h (.fpr f) (by simp [Tracked.parts, hform])
      simpa [State.unit] using gives_readSingle ht hload
    | bits | covered =>
      have hload := h (.fpr f) (by simp [Tracked.parts, hform])
      simpa [State.unit] using gives_readBits ht hload

/-- What giving a tracked register a value does to a table: the units that it is home to have their
bits from the value, and nothing else changes. -/
structure Sets (t : RegTable) (fp : FpTouched) (reg : Tracked) (v : Value) (V : Value → UInt64)
    (t' : RegTable) : Prop where
  home : ∀ g : State, V v = g.kept fp reg → ∀ u, u.home fp = reg → t'.AgreesAt V g u
  bits : ∀ u, u.home fp ≠ reg → t'.bits? V u = t.bits? V u
  known : ∀ r, Tracked.gpr r ≠ reg → t'.consts.constant? r = t.consts.constant? r

/-- After it, the table agrees with a state that holds the value. -/
theorem Sets.agreesAt (h : t.Sets fp reg v V t') (hv : u.home fp = reg → V v = g.kept fp reg)
    (hu : u.home fp ≠ reg → t.AgreesAt V g u) : t'.AgreesAt V g u := by
  by_cases hhome : u.home fp = reg
  · exact h.home g (hv hhome) u hhome
  · refine (hu hhome).of_unit (h.bits u hhome) rfl ?_
    rintro r rfl
    exact h.known r hhome

/-- A half of a pair as the value of a tracked register. -/
private theorem yields_setHalf {h : Half} (ht : t.Typed s) (hh : h.Typed s) (hload : h ≠ .unloaded)
    (hhome : (Tracked.fpr f).home fp = .fpr f) (hform : fp.form f ≠ .double)
    (hbits : ∀ V, h.bits? V = some (V v)) :
    Yields s (t.writeHalf f h)
      (fun t' s' => t.Keeps t' s' ∧ ∀ u : Tracked, u.home fp = .fpr f → t'.Loaded u)
      fun t' V m m' => m' = m ∧ t.Sets fp (.fpr f) v V t' := by
  have hiff : ∀ u : Tracked, u.home fp = .fpr f ↔ u = .fpr f := fun u => by
    rw [← Tracked.mem_parts hhome]
    simp [Tracked.parts, hform]
  refine (yields_writeHalf ht hh hload).imp (fun t' s' _ h => ⟨h.1, fun u hu => ?_⟩) ?_
  · rw [(hiff u).1 hu]
    exact h.2
  · rintro t' V m m' ⟨hm, hconsts, hbits'⟩
    refine ⟨hm, fun g hv u hu => .of_bits ?_ (by simp [(hiff u).1 hu]), fun u hu => ?_, fun r _ => ?_⟩
    · rw [hbits', if_pos ((hiff u).1 hu), hbits, hv, (hiff u).1 hu]
      simp [State.kept, hform]
    · rw [hbits', if_neg fun heq => hu ((hiff u).2 heq)]
    · rw [hconsts]

/-- A register that is a unit of its own, and no general one, is given a value. -/
private theorem yields_setUnit {t' : RegTable} (hkeeps : t.Keeps t' s)
    (hbits : ∀ V u, t'.bits? V u = if u = reg then some (V v) else t.bits? V u)
    (hconsts : t'.consts = t.consts) (hgpr : ∀ r, reg ≠ .gpr r)
    (hiff : ∀ u : Tracked, u.home fp = reg ↔ u = reg)
    (hkept : ∀ g : State, g.kept fp reg = g.unit reg) :
    Yields s (pure t')
      (fun t' s' => t.Keeps t' s' ∧ ∀ u : Tracked, u.home fp = reg → t'.Loaded u)
      fun t' V m m' => m' = m ∧ t.Sets fp reg v V t' := by
  refine Yields.pure ⟨hkeeps, fun u hu => ?_⟩ fun V m =>
    ⟨rfl, fun g hx u hu => ?_, fun u hu => ?_, fun r _ => by rw [hconsts]⟩
  · rw [Loaded, hbits, if_pos ((hiff u).1 hu)]
    rfl
  · rw [(hiff u).1 hu]
    refine .of_bits ?_ hgpr
    rw [hbits, if_pos rfl, hx, hkept]
  · rw [hbits, if_neg fun h => hu ((hiff u).2 h)]

/-- A general register is given a value: what it was known to hold is forgotten. -/
private theorem yields_setVariant {r : Gpr} (ht : t.Typed s) (hv : s.Has v .i32)
    (hr : r.isZero = false) (hiff : ∀ u : Tracked, u.home fp = .gpr r ↔ u = .gpr r) :
    Yields s (pure (t.setGpr r v .variant))
      (fun t' s' => t.Keeps t' s' ∧ ∀ u : Tracked, u.home fp = .gpr r → t'.Loaded u)
      fun t' V m m' => m' = m ∧ t.Sets fp (.gpr r) v V t' := by
  refine Yields.pure ⟨keeps_setGpr ht r .variant hv, fun u hu => ?_⟩ fun V m =>
    ⟨rfl, fun g hx u hu => ⟨fun y hy => ?_, fun r' c hr' hc => ?_⟩, fun u hu => ?_, fun r' hr' => ?_⟩
  · rw [Loaded, bits?_setGpr, if_pos ⟨(hiff u).1 hu, hr⟩]
    rfl
  · rw [bits?_setGpr, if_pos ⟨(hiff u).1 hu, hr⟩] at hy
    rw [← Option.some.inj hy, hx, (hiff u).1 hu]
    rfl
  · have heq : r' = r := Tracked.gpr.inj (hr'.symm.trans ((hiff u).1 hu))
    rw [constant?_setGpr, if_pos ⟨heq, hr⟩] at hc
    cases hc
  · rw [bits?_setGpr, if_neg fun h => hu ((hiff u).2 h.1)]
  · rw [constant?_setGpr, if_neg fun h => hr' (congrArg _ h.1)]

/-- A double is the value of both registers of its pair. -/
private theorem yields_setDouble {f : Fpr} (ht : t.Typed s) (hv : s.Has v .f64)
    (hkept : ∀ g : State, g.kept fp (.fpr f) = g.pairBits f)
    (hiff : ∀ u : Tracked, u.home fp = .fpr f ↔ u = .fpr f.base ∨ u = .fpr f.base.partner) :
    Yields s (pure (t.writeDouble f v))
      (fun t' s' => t.Keeps t' s' ∧ ∀ u : Tracked, u.home fp = .fpr f → t'.Loaded u)
      fun t' V m m' => m' = m ∧ t.Sets fp (.fpr f) v V t' := by
  have hne : Tracked.fpr f.base ≠ .fpr f.base.partner := by
    simpa using (Fpr.partner_ne_base f).symm
  refine Yields.pure ⟨keeps_writeDouble ht hv, fun u hu => ?_⟩ fun V m =>
    ⟨rfl, fun g hx u hu => ?_, fun u hu => ?_, fun r _ => rfl⟩
  · rw [Loaded, bits?_writeDouble]
    rcases (hiff u).1 hu with rfl | rfl
    · simp [(Fpr.partner_ne_base f).symm]
    · simp
  · rw [hkept] at hx
    rcases (hiff u).1 hu with rfl | rfl
    · refine .of_bits ?_ (by simp)
      rw [bits?_writeDouble, if_neg hne, if_pos rfl, hx, State.toUInt32_pairBits]
      rfl
    · refine .of_bits ?_ (by simp)
      rw [bits?_writeDouble, if_pos rfl, hx, State.high_pairBits]
      rfl
  · have hother := fun h => hu ((hiff u).2 h)
    rw [bits?_writeDouble, if_neg fun h => hother (.inr h), if_neg fun h => hother (.inl h)]

/-- Giving a tracked register a value in the form it has at the boundaries of blocks. -/
theorem yields_set (ht : t.Typed s) (hv : s.Has v (reg.ty fp)) (hhome : reg.home fp = reg)
    (hzero : reg ≠ .gpr .zero) :
    Yields s (t.set fp reg v)
      (fun t' s' => t.Keeps t' s' ∧ ∀ u : Tracked, u.home fp = reg → t'.Loaded u)
      fun t' V m m' => m' = m ∧ t.Sets fp reg v V t' := by
  have hparts : ∀ u : Tracked, u.home fp = reg ↔ u ∈ Tracked.parts fp reg := fun u =>
    (Tracked.mem_parts hhome).symm
  cases reg with
  | gpr r =>
    have hr : r.isZero = false := Gpr.isZero_eq_false fun heq => hzero (congrArg _ heq)
    exact yields_setVariant ht hv hr fun u => by simp [hparts, Tracked.parts]
  | hiLo i =>
    exact yields_setUnit (keeps_setHiLo ht i hv) (bits?_setHiLo t i v) (by cases i <;> rfl) (by simp)
      (fun u => by simp [hparts, Tracked.parts]) fun _ => rfl
  | fcr c =>
    exact yields_setUnit (keeps_setFcr ht c hv) (bits?_setFcr t c v) rfl (by simp)
      (fun u => by simp [hparts, Tracked.parts]) fun _ => rfl
  | icnt =>
    exact yields_setUnit (keeps_setIcnt ht hv) (bits?_setIcnt t v) rfl (by simp)
      (fun u => by simp [hparts, Tracked.parts]) fun _ => rfl
  -- The form of the register says how it is written: a half, or both registers of a pair.
  | fpr f =>
    simp only [RegTable.set]
    cases hform : fp.form f with
    | single =>
      simp only [Tracked.ty, hform] at hv
      exact yields_setHalf ht (h := .single v) hv (by simp) hhome (by simp [hform]) fun _ => rfl
    | bits =>
      simp only [Tracked.ty, hform] at hv
      exact yields_setHalf ht (h := .bits v) hv (by simp) hhome (by simp [hform]) fun _ => rfl
    | covered =>
      simp only [Tracked.ty, hform] at hv
      exact yields_setHalf ht (h := .bits v) hv (by simp) hhome (by simp [hform]) fun _ => rfl
    | double =>
      simp only [Tracked.ty, hform] at hv
      exact yields_setDouble ht hv (fun g => by simp [State.kept, hform]) fun u => by
        simp [hparts, Tracked.parts, hform]

end RegTable

end HotRegion.Lowering
