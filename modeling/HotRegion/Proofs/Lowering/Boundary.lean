import HotRegion.Lowering.Function
import HotRegion.Proofs.Lowering.Table

/-!
# Registers at the boundaries of a region

On entry the registers that a region uses are loaded from the guest state, on exit those that it
defines are written back. Both go through the form in which the region keeps a register, and lose
nothing of it.

## Key results

- `yields_loadLiveIn`: after the loads the table agrees with the guest state
- `yields_writeBack`: a write-back gives the guest state the registers of the table
-/

namespace HotRegion.Lowering

open Isa Analysis Ssa Build
open Machine (State Loc)
open Region (Tracked)

variable {s s' : Site} {t t' : RegTable} {fp : FpTouched} {reg : Tracked} {regs : List Tracked}
  {v : Value} {c : Scope}

/-! ## Forms and locations -/

/-- A float is kept at its location as the integer of its width, any other value as it is. -/
theorem ty_cases (fp : FpTouched) (reg : Tracked) :
    (reg.ty fp).isFloat = false ∧ reg.ty fp = .ofLoc (reg.loc fp) ∨
      (reg.ty fp).isFloat = true ∧
        Function.castAllowed .bitcast (reg.ty fp) (.ofLoc (reg.loc fp)) = true ∧
        Function.castAllowed .bitcast (.ofLoc (reg.loc fp)) (reg.ty fp) = true := by
  cases reg with
  | fpr f =>
    simp only [Tracked.ty, Tracked.loc]
    cases fp.form f with
    | single | double => exact .inr ⟨rfl, rfl, rfl⟩
    | bits | covered => exact .inl ⟨rfl, rfl⟩
  | hiLo h => cases h <;> exact .inl ⟨rfl, rfl⟩
  | _ => exact .inl ⟨rfl, rfl⟩

/-- What is kept of a register fits both its type and its location. -/
theorem bitcast_kept (g : State) (fp : FpTouched) (reg : Tracked) :
    CastOp.bitcast.eval (reg.ty fp) (.ofLoc (reg.loc fp)) (g.kept fp reg) = g.kept fp reg ∧
      CastOp.bitcast.eval (.ofLoc (reg.loc fp)) (reg.ty fp) (g.kept fp reg) = g.kept fp reg ∧
      g.kept fp reg &&& (Ty.ofLoc (reg.loc fp)).mask = g.kept fp reg := by
  have hword : ∀ (a : UInt32) {ty : Ty}, ty.width = 32 → a.toUInt64 &&& ty.mask = a.toUInt64 :=
    fun a ty h => by
      rw [and_mask32 _ h]
      simp
  cases reg with
  | fpr f =>
    simp only [Tracked.ty, Tracked.loc, State.kept, State.unit]
    by_cases hd : fp.form f = .double
    · simp only [hd, if_true]
      exact ⟨eval_bitcast64 _ rfl, eval_bitcast64 _ rfl, and_mask64 _ rfl⟩
    · simp only [if_neg hd]
      cases hform : fp.form f with
      | double => exact absurd hform hd
      | single | bits | covered => exact ⟨eval_bitcast32 _ rfl, eval_bitcast32 _ rfl, hword _ rfl⟩
  | hiLo h => cases h <;> exact ⟨eval_bitcast32 _ rfl, eval_bitcast32 _ rfl, hword _ rfl⟩
  | icnt => exact ⟨eval_bitcast64 _ rfl, eval_bitcast64 _ rfl, and_mask64 _ rfl⟩
  | _ => exact ⟨eval_bitcast32 _ rfl, eval_bitcast32 _ rfl, hword _ rfl⟩

/-! ## Writing back -/

/-- The form of a register at its location, from the form that the region keeps it in. -/
private theorem gives_raw (hv : s.Has v (reg.ty fp)) :
    Gives s (do if (← ty v).isFloat then cast .bitcast v (.ofLoc (reg.loc fp)) else pure v : Emit Value)
      (.ofLoc (reg.loc fp)) fun V _ y => ∀ g : State, V v = g.kept fp reg → y = g.kept fp reg := by
  rcases ty_cases fp reg with ⟨hint, heq⟩ | ⟨hfloat, hcast, _⟩
  · refine ⟨v, s, [], ?_, .refl s, heq ▸ hv, fun f V m m' _ hsat => ⟨hsat, fun g hg => hg⟩⟩
    rw [ty_bind hv, hint]
    rfl
  · obtain ⟨w, s', code, hrun, hgrows, hw, hsem⟩ := gives_cast hv hcast
    refine ⟨w, s', code, ?_, hgrows, hw, fun f V m m' hfits hsat => ?_⟩
    · rw [ty_bind hv, hfloat]
      exact hrun
    · obtain ⟨hm, hval⟩ := hsem f V m m' hfits hsat
      refine ⟨hm, fun g hg => ?_⟩
      rw [hval, hg]
      exact (bitcast_kept g fp reg).1

/-- The machine `m'` is `m` with the units of `g` that the given registers keep. -/
def WroteBack (fp : FpTouched) (regs : List Tracked) (g m m' : State) : Prop :=
  ∀ u : Tracked, m'.unit u = if u.home fp ∈ regs then g.unit u else m.unit u

/-- Writing back one register. -/
private theorem yields_writeReg (ht : t.Typed s) (hload : ∀ u ∈ Tracked.parts fp reg, t.Loaded u)
    (hhome : reg.home fp = reg) (hzero : reg ≠ .gpr .zero) :
    Yields s (do
        let v ← t.get fp reg
        let raw ← if (← ty v).isFloat then cast .bitcast v (.ofLoc (reg.loc fp)) else pure v
        writeGuest (reg.loc fp) raw : Emit Unit) (fun _ _ => True) fun _ V m m' =>
      m'.state.mem = m.state.mem ∧
        ∀ g : State, t.Agrees V g → WroteBack fp [reg] g m.state m'.state := by
  refine Gives.bind (RegTable.gives_get ht hload) fun v s₁ h₁ hv => ?_
  have hraw := Gives.bind (k := fun raw => (liftM (writeGuest (reg.loc fp) raw) : Emit Unit))
    (U := fun _ _ => True) (Q := fun _ V m m' => m'.state.mem = m.state.mem ∧
      ∀ g : State, V v = g.kept fp reg → WroteBack fp [reg] g m.state m'.state)
    (gives_raw hv) fun raw s₂ h₂ hr => by
    refine (yields_writeGuest hr).imp (fun _ _ _ _ => trivial) ?_
    rintro _ V m m' rfl hkept
    refine ⟨mem_writeLoc _ _ _, fun g hg u => ?_⟩
    change (m.state.writeLoc (reg.loc fp) (V raw)).unit u = _
    rw [hkept g hg, State.unit_writeLoc _ _ hhome hzero u]
    simp only [List.mem_singleton]
  -- The same code, with the value that is written as a step of its own.
  have hsame : (do
      let raw ← if (← ty v).isFloat then cast .bitcast v (.ofLoc (reg.loc fp)) else pure v
      writeGuest (reg.loc fp) raw : Emit Unit) = (do
        if (← ty v).isFloat then cast .bitcast v (.ofLoc (reg.loc fp)) else pure v : Emit Value) >>=
          fun raw => liftM (writeGuest (reg.loc fp) raw) := by
    rw [bind_assoc]
    refine bind_congr fun ty => ?_
    split <;> rfl
  rw [← hsame] at hraw
  exact hraw.imp (fun _ _ _ h => h) fun _ V m m' h hget => ⟨h.1, fun g hg => h.2 g (hget g hg)⟩

/-- Writing back registers gives the machine the units they keep. -/
theorem yields_writeBack (ht : t.Typed s)
    (hload : ∀ u : Tracked, u.home c.fp ∈ c.usage.written → t.Loaded u)
    (hhome : ∀ reg ∈ c.usage.written, reg.home c.fp = reg ∧ reg ≠ .gpr .zero) :
    Yields s (c.writeBack t) (fun _ _ => True) fun _ V m m' => m'.state.mem = m.state.mem ∧
      ∀ g : State, t.Agrees V g → WroteBack c.fp c.usage.written g m.state m'.state := by
  unfold Scope.writeBack
  generalize c.usage.written = regs at hload hhome ⊢
  induction regs generalizing s with
  | nil => exact Yields.pure trivial fun V m => ⟨rfl, fun g _ u => by simp⟩
  | cons reg regs ih =>
    obtain ⟨hreg, hzero⟩ := hhome reg List.mem_cons_self
    have hfirst := yields_writeReg ht
      (fun u hu => hload u (by rw [(Tracked.mem_parts hreg).1 hu]; exact List.mem_cons_self))
      hreg hzero
    refine Yields.bind hfirst fun _ s₁ h₁ _ => ?_
    refine (ih (ht.mono h₁) (fun u hu => hload u (List.mem_cons_of_mem _ hu))
      fun r hr => hhome r (List.mem_cons_of_mem _ hr)).imp (fun _ _ _ h => h) ?_
    rintro _ V m₁ m' ⟨hmem', hrest⟩ m ⟨hmem, hone⟩
    refine ⟨hmem'.trans hmem, fun g hg u => ?_⟩
    rw [hrest g hg u, hone g hg u]
    simp only [List.mem_cons]
    by_cases hu : u.home c.fp = reg <;> by_cases hu' : u.home c.fp ∈ regs <;> simp [hu, hu']

/-! ## Loading -/

/-- The table after a load agrees with the machine at the units that the register keeps. What the
machine has for `$0` does not matter. -/
private theorem yields_loadReg (ht : t.Typed s) (hhome : reg.home fp = reg)
    (hzero : reg ≠ .gpr .zero) :
    Yields s (do
        let raw ← readGuest (reg.loc fp)
        let v ← if (reg.ty fp).isFloat then cast .bitcast raw (reg.ty fp) else pure raw
        t.set fp reg v : Emit RegTable)
      (fun t' s' => t.Keeps t' s' ∧ ∀ u : Tracked, u.home fp = reg → t'.Loaded u)
      fun t' V m m' => m' = m ∧ ∀ g : State, (∀ u, u ≠ .gpr .zero → g.unit u = m.state.unit u) →
        t.Agrees V g → t'.Agrees V g := by
  refine Gives.bind (gives_readGuest (reg.loc fp)) fun raw s₁ h₁ hraw => ?_
  -- The value in the form that the region keeps is what the machine holds.
  have hset : ∀ (s₂ : Site) (v : Value), s₁.Le s₂ → s₂.Has v (reg.ty fp) →
      Yields s₂ (t.set fp reg v)
        (fun t' s' => t.Keeps t' s' ∧ ∀ u : Tracked, u.home fp = reg → t'.Loaded u)
        fun t' V m m' => V v = m.state.kept fp reg →
          m' = m ∧ ∀ g : State, (∀ u, u ≠ .gpr .zero → g.unit u = m.state.unit u) →
            t.Agrees V g → t'.Agrees V g := by
    intro s₂ v h₂ hv
    refine (RegTable.yields_set (ht.mono (h₁.trans h₂)) hv hhome hzero).imp
      (fun _ _ _ h => ⟨⟨h.1.typed, h.1.loaded⟩, h.2⟩) ?_
    rintro t' V m m' ⟨rfl, hsets⟩ hkept
    refine ⟨rfl, fun g hsame hg u => hsets.agreesAt (fun _ => ?_) fun _ => hg u⟩
    rw [State.kept_congr hsame hzero]
    exact hkept
  have hread : ∀ m : Watched, m.state.readLoc (reg.loc fp) &&& (Ty.ofLoc (reg.loc fp)).mask =
      m.state.kept fp reg := by
    intro m
    rw [State.readLoc_loc]
    exact (bitcast_kept m.state fp reg).2.2
  rcases ty_cases fp reg with ⟨hint, heq⟩ | ⟨hfloat, _, hcast⟩
  · simp only [hint, Bool.false_eq_true, if_false, pure_bind]
    refine (hset s₁ raw (.refl _) (heq ▸ hraw)).imp (fun _ _ _ h => h) ?_
    intro t' V m m' h hr
    exact h (hr.trans (hread m))
  · simp only [hfloat, if_true]
    refine Gives.bind (gives_cast hraw hcast) fun v s₂ h₂ hv => ?_
    refine (hset s₂ v h₂ hv).imp (fun _ _ _ h => h) ?_
    intro t' V m m' h hv hr
    refine h ?_
    rw [hv, hr, hread]
    exact (bitcast_kept m.state fp reg).2.1

/-- After the loads the table agrees with the machine, whatever that has for `$0`, and has every unit
that a loaded register keeps. -/
theorem yields_loadLiveIn (ht : t.Typed s)
    (hhome : ∀ reg ∈ c.usage.liveIn, reg.home c.fp = reg ∧ reg ≠ .gpr .zero) :
    Yields s (c.loadLiveIn t)
      (fun t' s' => t.Keeps t' s' ∧ ∀ u : Tracked, u.home c.fp ∈ c.usage.liveIn → t'.Loaded u)
      fun t' V m m' => m' = m ∧ ∀ g : State, (∀ u, u ≠ .gpr .zero → g.unit u = m.state.unit u) →
        t.Agrees V g → t'.Agrees V g := by
  unfold Scope.loadLiveIn
  generalize c.usage.liveIn = regs at hhome ⊢
  induction regs generalizing s t with
  | nil => exact Yields.pure ⟨.refl ht, by simp⟩ fun V m => ⟨rfl, fun _ _ h => h⟩
  | cons reg regs ih =>
    obtain ⟨hreg, hzero⟩ := hhome reg List.mem_cons_self
    rw [List.foldlM_cons]
    refine Yields.bind (yields_loadReg ht hreg hzero) fun t₁ s₁ _ hk => ?_
    refine (ih hk.1.typed fun r hr => hhome r (List.mem_cons_of_mem _ hr)).imp
      (fun t' s' _ h => ⟨hk.1.trans h.1, fun u hu => ?_⟩) ?_
    · rcases List.mem_cons.1 hu with hu | hu
      · exact h.1.loaded u (hk.2 u hu)
      · exact h.2 u hu
    · rintro t' V m₁ m' ⟨rfl, hrest⟩ m ⟨rfl, hone⟩
      exact ⟨rfl, fun g hsame hg => hrest g hsame (hone g hsame hg)⟩

/-! ## The first table -/

private theorem gpr_new (v : Value) (r : Gpr) :
    (RegTable.new v).gpr.get r.num = if r = .zero then some v else none := by
  simp only [RegTable.new, get_set, Gpr.num_inj]
  split
  · rfl
  · simp [Vector.get]

/-- The first table has a value for `$0` alone. -/
private theorem bits?_new (v : Value) (V : Value → UInt64) (u : Tracked) :
    (RegTable.new v).bits? V u = if u = .gpr .zero then some (V v) else none := by
  cases u with
  | gpr r =>
    simp only [RegTable.bits?, gpr_new, Tracked.gpr.injEq]
    split <;> rfl
  | hiLo h => cases h <;> rfl
  | fpr f =>
    have hpair : (RegTable.new v).getPair f = .halves .unloaded .unloaded := by
      simp [RegTable.new, RegTable.getPair, Vector.get]
    simp [RegTable.bits?, hpair, Pair.bits?, Half.bits?]
  | fcr r => simp [RegTable.bits?, RegTable.new, Vector.get]
  | icnt => rfl

theorem typed_new (hv : s.Has v .i32) : (RegTable.new v).Typed s where
  gpr r w h := by
    rw [gpr_new] at h
    split at h
    · cases h
      exact hv
    · cases h
  hi w h := by cases h
  lo w h := by cases h
  pair f := by
    have hpair : (RegTable.new v).getPair f = .halves .unloaded .unloaded := by
      simp [RegTable.new, RegTable.getPair, Vector.get]
    rw [hpair]
    exact ⟨trivial, trivial⟩
  fcr r w h := by simp [RegTable.new, Vector.get] at h
  icnt w h := by cases h
  zero := by
    rw [RegTable.Loaded, bits?_new, if_pos rfl]
    rfl

/-- The first table agrees with every state in which `$0` is zero. -/
theorem agrees_new {V : Value → UInt64} {g : State} (hv : V v = 0) (hg : g.reg .zero = 0) :
    (RegTable.new v).Agrees V g := by
  refine fun u => ⟨fun y hy => ?_, fun r x hr hx => ?_⟩
  · rw [bits?_new] at hy
    split at hy
    · rename_i hu
      cases hy
      rw [hv, hu, State.unit, hg]
      rfl
    · cases hy
  · -- Only `$0` is known to be constant.
    simp only [RegTable.new, ConstRegs.constant?, ConstRegs.get, ConstRegs.variant, ConstRegs.fill,
      get_set, Gpr.num_inj] at hx
    split at hx
    · rename_i hzero
      cases hx
      rw [hzero, hg]
    · simp [Vector.get, ConstValue.constant?] at hx

end HotRegion.Lowering
