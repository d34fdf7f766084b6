import HotRegion.Proofs.Lowering.Leave

/-!
# Merges and the code of a block

A block of the region starts with a phi for each merged register, and goes on with its code. Giving
the table the value of a phi may take a pair of registers apart, so that code is made between the
phis; each new phi still goes before it. `Entering` is the state in between.

## Key results

- `addPhis_spec`: the merges of a block
- `lowerBody_spec`: the merges and the code of a block
-/

namespace HotRegion.Lowering

open Isa Analysis Ssa Build
open Machine (State)
open Region (Tracked Slot Departure)

variable {c : Scope} {K : UInt32 × UInt32 → Prop} {n i : Nat} {d d₀ : Draft} {ty : Ty}
  {phis code : List Inst} {term : Option Terminator} {own : Nat → Prop} {t : RegTable}
  {A : Value → Prop}

/-! ## Phis -/

namespace Draft

/-- The draft with a phi after those of the current block. -/
def merge (d : Draft) (ty : Ty) : Draft := { d with builder := (phi ty d.builder).2 }

@[simp] theorem types_merge : (d.merge ty).types = d.types.push ty := rfl
@[simp] theorem cur_merge : (d.merge ty).cur = d.cur := rfl
@[simp] theorem edges_merge : (d.merge ty).edges = d.edges := rfl
@[simp] theorem phis_merge : (d.merge ty).phis = d.phis := rfl

/-- A phi makes no new block. -/
@[simp] theorem size_merge : (d.merge ty).size = d.size := by
  change (d.builder.function.blocks.modify d.builder.current.index _).size = _
  simp [size]

/-- The number of phis at the start of the current block. -/
def phiCount (d : Draft) : Nat :=
  match d.view d.cur with
  | some p => (p.1.takeWhile Inst.isPhi).length
  | none => 0

/-- The phis of a block are counted up to its first other instruction. -/
theorem phiCount_eq (h : d.view d.cur = some (phis ++ code, term))
    (hphis : ∀ inst ∈ phis, inst.isPhi = true) (hcode : ∀ inst ∈ code, inst.isPhi = false) :
    d.phiCount = phis.length := by
  have htake : code.takeWhile Inst.isPhi = [] := by
    cases code with
    | nil => rfl
    | cons inst code => rw [List.takeWhile_cons, hcode inst List.mem_cons_self]; rfl
  rw [phiCount, h]
  simp only
  rw [List.takeWhile_append_of_pos hphis, htake, List.append_nil]

/-- A phi goes after the phis of its block. -/
private theorem position_merge :
    (match d.builder.function.block? d.builder.current with
      | some block => block.phis.length
      | none => 0) = d.phiCount := by
  unfold phiCount view cur Function.block? Ssa.Block.phis
  cases d.builder.function.blocks[d.builder.current.index]? <;> rfl

/-- The builder notes where the phi is. -/
theorem sites_merge (d : Draft) (ty : Ty) : (d.merge ty).builder.phiSites =
    d.builder.phiSites.insert d.types.size (⟨d.cur⟩, d.phiCount) := by
  rw [← position_merge]
  rfl

/-- The phi is seen after the others of its block. -/
theorem view_merge (d : Draft) (ty : Ty) (j : Nat) : (d.merge ty).view j =
    if j = d.cur then (d.view j).map fun p =>
      (p.1.take d.phiCount ++ .phi ⟨d.types.size⟩ [] :: p.1.drop d.phiCount, p.2)
    else d.view j := by
  rw [← position_merge]
  change (((d.builder.function.blocks.modify d.cur (Block.insertAt _ _))[j]?).map
    fun b => (b.insts.toList, b.terminator)) = _
  rw [Array.getElem?_modify]
  by_cases h : j = d.cur
  · rw [if_pos h.symm, if_pos h]
    simp only [view, Option.map_map]
    rfl
  · rw [if_neg (Ne.symm h), if_neg h]
    rfl

/-- The new phi stands between the phis and the code. -/
theorem view_merge_cur (ty : Ty) (h : d.view d.cur = some (phis ++ code, term))
    (hphis : ∀ inst ∈ phis, inst.isPhi = true) (hcode : ∀ inst ∈ code, inst.isPhi = false) :
    (d.merge ty).view d.cur = some (phis ++ [.phi ⟨d.types.size⟩ []] ++ code, term) := by
  rw [view_merge, if_pos rfl, h, phiCount_eq h hphis hcode]
  simp

end Draft

/-- Making a phi as a step of the walk. -/
theorem phi_run (ty : Ty) :
    (liftM (phi ty) : Walk Value) d = .ok (⟨d.types.size⟩, d.merge ty) := rfl

/-- The new phi defines one value in its block. -/
theorem dsts_merge (h : d.view d.cur = some (phis ++ code, term))
    (hphis : ∀ inst ∈ phis, inst.isPhi = true) (hcode : ∀ inst ∈ code, inst.isPhi = false)
    (j : Nat) : (d.merge ty).dsts j =
      if j = d.cur then dsts phis ++ ⟨d.types.size⟩ :: dsts code else d.dsts j := by
  by_cases hj : j = d.cur
  · subst hj
    rw [if_pos rfl, Draft.dsts_of_view (Draft.view_merge_cur ty h hphis hcode)]
    simp [dsts, Inst.dst?]
  · rw [if_neg hj]
    simp only [Draft.dsts, Draft.view_merge, if_neg hj]

/-- A phi defines a new value. -/
theorem grown_merge (h : d.view d.cur = some (phis ++ code, term))
    (hphis : ∀ inst ∈ phis, inst.isPhi = true) (hcode : ∀ inst ∈ code, inst.isPhi = false)
    (ho : own d.cur) : Grown own d (d.merge ty) := by
  have hdsts : ∀ j, (d.merge ty).dsts j = if j = d.cur then
      dsts phis ++ ⟨d.types.size⟩ :: dsts code else d.dsts j := dsts_merge h hphis hcode
  have hcur : d.dsts d.cur = dsts phis ++ dsts code := by
    rw [Draft.dsts_of_view h, dsts_append]
  -- The new value is none of the old ones, which all lie below it.
  have hmem : ∀ j v, v ∈ (d.merge ty).dsts j ↔
      v ∈ d.dsts j ∨ j = d.cur ∧ v = ⟨d.types.size⟩ := by
    intro j v
    rw [hdsts]
    by_cases hj : j = d.cur
    · subst hj
      rw [if_pos rfl, hcur]
      simp only [List.mem_append, List.mem_cons, true_and]
      exact ⟨fun h => by rcases h with h | h | h <;> simp [h],
        fun h => by rcases h with (h | h) | h <;> simp [h]⟩
    · simp [hj]
  refine ⟨by simp, fun j _ hj => ?_, fun j ty' hj => ?_, ⟨[], by simp, by simp⟩, fun v hv => ?_,
    fun ht => ⟨fun j => ?_, fun j k v hj hk => ?_, fun j v hv => ?_, fun e he => ?_, ht.sorted⟩⟩
  · rw [Draft.view_merge, if_neg]
    rintro rfl
    exact hj ho
  · rw [Draft.types_merge, Array.getElem?_push,
      if_neg (Nat.ne_of_lt (Array.getElem?_eq_some_iff.1 hj).1)]
    exact hj
  · rw [Draft.sites_merge, Std.TreeMap.getElem?_insert]
    rw [if_neg]
    simp only [Nat.compare_eq_eq]
    omega
  · rw [hdsts]
    split
    · refine List.perm_middle.nodup_iff.2 ?_
      refine List.nodup_cons.2 ⟨fun hin => ?_, hcur ▸ ht.nodup d.cur⟩
      have := ht.bound d.cur _ (hcur ▸ hin)
      simp at this
    · exact ht.nodup j
  · rcases (hmem j v).1 hj with hj' | ⟨hj', hv⟩ <;> rcases (hmem k v).1 hk with hk' | ⟨hk', hv'⟩
    · exact ht.apart j k v hj' hk'
    · have := ht.bound j v hj'
      simp [hv'] at this
    · have := ht.bound k v hk'
      simp [hv] at this
    · rw [hj', hk']
  · rw [Draft.types_merge, Array.size_push]
    rcases (hmem j v).1 hv with hv | ⟨-, rfl⟩
    · exact Nat.lt_succ_of_lt (ht.bound j v hv)
    · exact Nat.lt_succ_self _
  · rw [Draft.size_merge]
    exact ht.sources e he

/-! ## Entering a block -/

/-- Block `i` starts with these merges, from the table `t` and the values `A`, and its code so far
gives the table `table`. -/
structure Entering (c : Scope) (d : Draft) (i : Nat) (t : RegTable) (A : Value → Prop)
    (merges : List Merge) (start : Context) (code : List Inst) (stop : Context) (table : RegTable) :
    Prop where
  view : d.view i = some (merges.map Merge.inst ++ code, none)
  ordered : Ssa.Code start code stop
  types : ∀ (j : Nat) (ty : Ty), stop.types[j]? = some ty → d.types[j]? = some ty
  avail : ∀ v, start.avail v → A v ∨ ∃ mg ∈ merges, mg.dst = v
  merged : ∀ (k : Nat) (mg : Merge), merges[k]? = some mg →
    d.types[mg.dst.index]? = some (mg.reg.ty c.fp) ∧
      d.builder.phiSites[mg.dst.index]? = some (⟨i⟩, k)
  bare : ∀ mg ∈ merges, mg.incoming = []
  typed : table.Typed (.ofContext stop)
  loaded : ∀ u, t.Loaded u → table.Loaded u
  -- A merge counts for the units it is home to, the table at the start for all others.
  agrees : ∀ f V m m', stop.Fits f → Sat f V code m m' → m' = m ∧ ∀ (g : State) (u : Tracked),
    (u.home c.fp ∉ merges.map Merge.reg → t.AgreesAt V g u) →
    (∀ mg ∈ merges, mg.reg = u.home c.fp → V mg.dst = g.kept c.fp mg.reg) → table.AgreesAt V g u

variable {merges : List Merge} {start stop : Context} {table : RegTable}

/-- A block that is empty has no merges yet. -/
theorem Entering.empty (hview : d.view i = some ([], none)) (ht : t.Typed (d.site A)) :
    Entering c d i t A [] ⟨d.types, A⟩ [] ⟨d.types, A⟩ t where
  view := hview
  ordered := .nil _
  types _ _ h := h
  avail _ h := .inl h
  merged _ _ h := by cases h
  bare _ h := absurd h List.not_mem_nil
  typed := ht.mono (Context.Le.refl _)
  loaded _ h := h
  agrees f V m m' _ hsat := ⟨hsat, fun g u ht _ => ht (by simp)⟩

/-- One more merge: a phi, and its value in the table. -/
theorem Entering.merge (h : Entering c d i t A merges start code stop table) (hcur : d.cur = i)
    {reg : Tracked} (hhome : reg.home c.fp = reg) (hzero : reg ≠ .gpr .zero) :
    ∃ tys more stop' table',
      (liftM (table.set c.fp reg ⟨d.types.size⟩) : Walk RegTable) (d.merge (reg.ty c.fp)) =
        .ok (table', (d.merge (reg.ty c.fp)).emit tys more) ∧
      Grown (· = i) d ((d.merge (reg.ty c.fp)).emit tys more) ∧
      Entering c ((d.merge (reg.ty c.fp)).emit tys more) i t A
        (merges ++ [⟨reg, ⟨d.types.size⟩, []⟩]) (start.also (· = ⟨d.types.size⟩)) (code ++ more) stop'
        table' := by
  let v : Value := ⟨d.types.size⟩
  let d₁ := d.merge (reg.ty c.fp)
  have hview : d.view d.cur = some (merges.map Merge.inst ++ code, none) := hcur ▸ h.view
  have hphis : ∀ inst ∈ merges.map Merge.inst, inst.isPhi = true := by
    intro inst hi
    obtain ⟨mg, -, rfl⟩ := List.mem_map.1 hi
    rfl
  have hcode := h.ordered.not_phi
  have hlt : d.cur < d.size := Draft.lt_size hview
  have hg₁ : Grown (· = i) d d₁ := grown_merge hview hphis hcode hcur
  -- The phi is at hand in all code of the block.
  let now : Context := ⟨d₁.types, (stop.also (· = v)).avail⟩
  have hnow : (stop.also (· = v)).Le now :=
    ⟨fun j ty hj => hg₁.types j ty (h.types j ty hj), fun _ hw => hw⟩
  have hv : (d₁.site now.avail).Has v (reg.ty c.fp) := by
    refine ⟨?_, .inr rfl⟩
    change (d.types.push (reg.ty c.fp))[d.types.size]? = _
    simp
  have hle : (Site.ofContext stop).Le (d₁.site now.avail) := (stop.le_also (· = v)).trans hnow
  have htable : table.Typed (d₁.site now.avail) := h.typed.mono hle
  obtain ⟨table', tys, more, A', hrun, hmore, hkeeps, hsem⟩ :=
    (RegTable.yields_set htable hv hhome hzero).walk
  have hg₂ : Grown (· = i) d₁ (d₁.emit tys more) := grown_emit hmore hcur (by simpa [d₁] using hlt)
  have hordered : Ssa.Code (start.also (· = v)) (code ++ more) ⟨tys, A'⟩ :=
    (h.ordered.weaken (· = v)).append (.grow hnow.types rfl hmore)
  have hstop : (stop.also (· = v)).Le ⟨tys, A'⟩ := hnow.trans hmore.le
  refine ⟨tys, more, ⟨tys, A'⟩, table', hrun, hg₁.trans hg₂, ⟨?_, hordered, fun _ _ hj => hj, ?_, ?_,
    ?_, hkeeps.1.typed.mono (Context.Le.refl _), fun u hu => hkeeps.1.loaded u (h.loaded u hu), ?_⟩⟩
  · have hview₁ := Draft.view_merge_cur (reg.ty c.fp) hview hphis hcode
    rw [hcur] at hview₁
    rw [Draft.view_emit, if_pos (show i = d₁.cur from hcur.symm), hview₁]
    simp [Merge.inst]
  · rintro w (hw | rfl)
    · refine (h.avail w hw).imp_right fun ⟨mg, hmg, hdst⟩ => ⟨mg, ?_, hdst⟩
      exact List.mem_append_left _ hmg
    · exact .inr ⟨_, List.mem_append_right _ (List.mem_singleton.2 rfl), rfl⟩
  · intro k mg hk
    rcases Nat.lt_or_ge k merges.length with hlt' | hge
    · rw [List.getElem?_append_left hlt'] at hk
      obtain ⟨hty, hsite⟩ := h.merged k mg hk
      have hbound := (Array.getElem?_eq_some_iff.1 hty).1
      exact ⟨hg₂.types _ _ (hg₁.types _ _ hty), (hg₁.sites _ hbound).trans hsite⟩
    · rw [List.getElem?_append_right hge] at hk
      obtain ⟨hk₀, rfl⟩ := List.getElem?_eq_some_iff.1 hk
      have hk' : k = merges.length := by
        simp only [List.length_singleton] at hk₀
        omega
      subst hk'
      refine ⟨hg₂.types _ _ ?_, ?_⟩
      · simp [d₁]
      · change (d.merge (reg.ty c.fp)).builder.phiSites[_]? = _
        rw [Draft.sites_merge, Draft.phiCount_eq hview hphis hcode, hcur]
        simp
  · intro mg hmg
    rcases List.mem_append.1 hmg with hmg | hmg
    · exact h.bare mg hmg
    · rw [List.mem_singleton.1 hmg]
  · intro f V m m' hfits hsat
    obtain ⟨m₁, hsat₁, hsat₂⟩ := sat_append.1 hsat
    obtain ⟨rfl, hold⟩ := h.agrees f V m m₁ ((hfits.mono hstop).mono (stop.le_also _)) hsat₁
    obtain ⟨rfl, hsets⟩ := hsem f V m₁ m' hfits hsat₂
    refine ⟨rfl, fun g u hu hmerges => ?_⟩
    refine hsets.agreesAt (fun hreg => ?_) fun hreg => hold g u (fun hnot => hu ?_) fun mg hmg => ?_
    · exact hmerges ⟨reg, v, []⟩ (by simp [v]) hreg.symm
    · simpa [hreg] using hnot
    · exact hmerges mg (List.mem_append_left _ hmg)

/-- All merges of a block. -/
private theorem addMerges_spec (regs : List Tracked)
    (hregs : ∀ reg ∈ regs, reg.home c.fp = reg ∧ reg ≠ .gpr .zero)
    (h : Entering c d i t A merges start code stop table) (hcur : d.cur = i) :
    ∃ d' merges' start' code' stop' table',
      (regs.foldlM (fun (p : RegTable × Phis) reg => do
          let v ← (phi (reg.ty c.fp) : Build Value)
          return (← (p.1.set c.fp reg v : Emit RegTable), p.2 ++ [(reg, v)]))
        (table, merges.map Merge.note) : Walk (RegTable × Phis)) d =
        .ok ((table', (merges ++ merges').map Merge.note), d') ∧
      Grown (· = i) d d' ∧ d'.cur = i ∧ d'.size = d.size ∧ d'.edges = d.edges ∧ d'.phis = d.phis ∧
      merges'.map Merge.reg = regs ∧
      Entering c d' i t A (merges ++ merges') start' code' stop' table' := by
  -- Induction on the registers, with the merges made so far in `merges`.
  induction regs generalizing d merges start code stop table with
  | nil =>
    exact ⟨d, [], start, code, stop, table, by simp; rfl, .refl _ d, hcur, rfl, rfl, rfl, rfl,
      by simpa using h⟩
  | cons reg regs ih =>
    obtain ⟨hhome, hzero⟩ := hregs reg List.mem_cons_self
    obtain ⟨tys, more, stop₁, table₁, hrun, hgrown, hnext⟩ := h.merge hcur hhome hzero
    let d₁ := (d.merge (reg.ty c.fp)).emit tys more
    obtain ⟨d', merges', start', code', stop', table', hrun', hgrown', hcur', hsize, hedges, hphis,
      hmerges, hdone⟩ := ih (fun r hr => hregs r (List.mem_cons_of_mem _ hr)) hnext
        (show d₁.cur = i from hcur)
    refine ⟨d', ⟨reg, ⟨d.types.size⟩, []⟩ :: merges', start', code', stop', table', ?_,
      hgrown.trans hgrown', hcur', hsize.trans (by simp), hedges.trans rfl, hphis.trans rfl,
      by simp [hmerges], by simpa using hdone⟩
    rw [List.foldlM_cons]
    have hone : ((do
        let v ← (phi (reg.ty c.fp) : Build Value)
        return (← (table.set c.fp reg v : Emit RegTable), merges.map Merge.note ++ [(reg, v)]) :
          Walk (RegTable × Phis))) d =
        .ok ((table₁, (merges ++ [(⟨reg, ⟨d.types.size⟩, []⟩ : Merge)]).map Merge.note), d₁) := by
      rw [run_bind (phi_run _), run_bind hrun]
      simp [Merge.note]
      rfl
    rw [run_bind hone, hrun']
    simp

/-- The draft with a note of the merges of a block. -/
def Draft.notePhis (d : Draft) (s : Slot) (phis : Phis) : Draft :=
  { d with phis := Ascending.put (·.1) (s, phis) d.phis }

/-- Noting phis changes no block. -/
theorem grown_notePhis (s : Slot) (phis : Phis) : Grown own d (d.notePhis s phis) :=
  ⟨Nat.le_refl _, fun _ _ _ => rfl, fun _ _ h => h, ⟨[], by simp [Draft.notePhis], by simp⟩,
    fun _ _ => rfl, fun h => ⟨h.nodup, h.apart, h.bound, h.sources, h.sorted.put _⟩⟩

/-- The merges of a block. -/
theorem addPhis_spec (hc : c.Sound K n) {s : Slot} {b : Region.Block}
    (hb : c.region.block? s = some b) (hcur : d.cur = i) (hview : d.view i = some ([], none))
    (ht : t.Typed (d.site A)) :
    ∃ d' merges start code stop table, c.addPhis s b t d =
        .ok (table, d'.notePhis s (merges.map Merge.note)) ∧
      Grown (· = i) d d' ∧ d'.cur = i ∧ d'.size = d.size ∧ d'.edges = d.edges ∧ d'.phis = d.phis ∧
      merges.map Merge.reg = c.region.phisAt s ∧
      Entering c d' i t A merges start code stop table := by
  have hphis : c.region.phisAt s = b.phis := by simp [Region.phisAt, hb]
  have hregs : ∀ reg ∈ b.phis, reg.home c.fp = reg ∧ reg ≠ .gpr .zero := by
    intro reg hreg
    have hwritten := hc.ready.phis_written s reg (hphis ▸ hreg)
    have hhome := hc.ready.usage.home reg (hc.ready.usage.written reg hwritten)
    exact ⟨hhome.1, hhome.2.1⟩
  obtain ⟨d', merges, start, code, stop, table, hrun, hgrown, hcur', hsize, hedges, hphis', hmerges,
    hdone⟩ := addMerges_spec b.phis hregs (Entering.empty hview ht) hcur
  refine ⟨d', merges, start, code, stop, table, ?_, hgrown, hcur', hsize, hedges, hphis',
    hmerges.trans hphis.symm, by simpa using hdone⟩
  unfold Scope.addPhis
  exact run_bind hrun

/-! ## The code of a block -/

/-- A table that has all a region needs has what each of its instructions needs. -/
theorem covers_of_full (hu : c.usage.Describes c.region c.config.countInstructions)
    (ht : c.Full t) {s : Slot} {b : Region.Block} (hb : c.region.block? s = some b) {insn : Instr}
    (hi : insn ∈ b.body) : t.Covers insn := by
  intro ref href u hu'
  refine ht u ?_
  have hmem : u.home c.fp ∈ Tracked.ofRef c.fp ref := Tracked.home_mem_ofRef hu'
  rcases List.mem_append.1 href with href | href
  · exact hu.uses s b hb insn hi _ (List.mem_flatMap.2 ⟨ref, href, hmem⟩)
  · refine hu.written _ (hu.ordered.mem_written.2 ⟨s, (hu.defs s _).2 ⟨b, hb, .inl ⟨insn, hi, ?_⟩⟩⟩)
    exact List.mem_flatMap.2 ⟨ref, href, hmem⟩

/-- The blocks of a ready region have the shape of blocks. -/
theorem Scope.Sound.shaped (hc : c.Sound K n) {s : Slot} {b : Region.Block}
    (hs : s ≠ Region.entrySlot) (hb : c.region.block? s = some b) : b.Shaped := by
  rcases hc.ready.block s b hs hb with hguest | ⟨a, tr, taken, notTaken, w, ha, hpatch⟩
  · exact hguest.shaped
  · exact hpatch.shaped ha.shaped

/-- The merges and the code of a block, without its end. -/
theorem lowerBody_spec (hc : c.Sound K n) {s : Slot} {b : Region.Block}
    (hs : s ≠ Region.entrySlot) (hb : c.region.block? s = some b)
    (hi : i = (c.place s).index) (hcur : d.cur = i) (hview : d.view i = some ([], none))
    (ht : t.Typed (d.site A)) (hfull : c.Full t) (hhands : c.Hands s t) :
    ∃ d' ch e, (do
        let t ← c.addPhis s b t
        (c.bodyCode b t : Emit (RegTable × Ending)) : Walk (RegTable × Ending)) d =
          .ok ((ch.table, e), d') ∧
      Grown (· = i) d d' ∧ d'.cur = i ∧ d'.size = d.size ∧ d'.edges = d.edges ∧
      d'.phis = Ascending.put (·.1) (s, ch.phis) d.phis ∧
      Begun c n d' i ch (fun V g out => e.Holds V g out) ∧ ch.role = .body ∧ ch.slot = s ∧
      ch.block = b ∧ ch.enter = t ∧ ch.below = A ∧ ch.Bare ∧ e.Typed (.ofContext ch.stop) ∧
      e.Of c s b := by
  obtain ⟨d₁, merges, start, code, stop, table, hrun₁, hgrown₁, hcur₁, hsize₁, hedges₁, hphis₁,
    hregs, hin⟩ := addPhis_spec hc hb hcur hview ht
  let d₂ := d₁.notePhis s (merges.map Merge.note)
  have hfull₂ : c.Full table := fun u hu => hin.loaded u (hfull u hu)
  have hnow : stop.Le ⟨d₂.types, stop.avail⟩ := ⟨hin.types, fun _ hv => hv⟩
  have htable : table.Typed (d₂.site stop.avail) := hin.typed.mono hnow
  -- The constants that are known before an instruction are those of the table that lowering has
  -- there.
  have hknown : ∀ i t' builder, c.codeUpTo b i table d₂.builder = .ok (t', builder) → ∀ r v,
      t'.consts.constant? r = some v → c.Knows s (.before i) r v := by
    intro i t' builder hcode r v hconst
    refine ⟨b, t, t', d, { d₂ with builder := builder }, hb, hhands, ?_, hconst⟩
    rw [Scope.tableAt, run_bind hrun₁, liftEmit_run, hcode]
    rfl
  obtain ⟨⟨t', e⟩, tys, more, A', hrun₂, hmore, ⟨hkeeps, htyped, hof⟩, hsem⟩ :=
    (yields_bodyCode htable (hc.shaped hs hb) (hc.can s b hs hb)
      (fun insn hinsn => covers_of_full hc.ready.usage hfull₂ hb hinsn)
      (fun hcount => hfull₂ .icnt (hc.ready.usage.counted hcount)) hknown).walk
  -- The block is described up to its end; the outlet is not known yet.
  let d₃ := d₂.emit tys more
  let ch : Chunk :=
    { slot := s, block := b, role := .body, enter := t, below := A, merges := merges, start := start
      code := code ++ more, stop := ⟨tys, A'⟩, table := t', out := .goto (.edge s) }
  have hlt : d₁.cur < d₁.size := hcur₁ ▸ Draft.lt_size hin.view
  have hgrown₃ : Grown (· = i) d₁ d₃ :=
    (grown_notePhis s _).trans (grown_emit hmore hcur₁ hlt)
  have hstop : stop.Le ⟨tys, A'⟩ := hnow.trans hmore.le
  refine ⟨d₃, ch, e, ?_, hgrown₁.trans hgrown₃, hcur₁, ?_, hedges₁, ?_, ⟨⟨none, ?_⟩, ?_,
    fun _ _ hj => hj, hin.avail, fun k mg hk => ?_, hb, ⟨hs, hi, ?_⟩, ?_,
    fun u hu => hkeeps.loaded u (hfull₂ u hu), fun f V m m' hfits hsat => ?_⟩, rfl, rfl, rfl, rfl, rfl,
    hin.bare, htyped.mono (Context.Le.refl _), hof⟩
  · rw [run_bind hrun₁]
    exact hrun₂
  · exact Draft.size_emit.trans hsize₁
  · change Ascending.put (·.1) (s, merges.map Merge.note) d₁.phis = _
    rw [hphis₁]
    rfl
  · have hview₂ : d₂.view i = some (merges.map Merge.inst ++ code, none) := hin.view
    rw [Draft.view_emit, if_pos (show i = d₂.cur from hcur₁.symm), hview₂]
    simp [ch]
  · exact hin.ordered.append (.grow hnow.types rfl hmore)
  · obtain ⟨hty, hsite⟩ := hin.merged k mg hk
    exact ⟨hgrown₃.types _ _ hty, hsite⟩
  · rw [← hregs]
    simp [ch, Chunk.phis, Merge.note, Function.comp_def]
  · exact hkeeps.typed.mono (Context.Le.refl _)
  · obtain ⟨m₁, hsat₁, hsat₂⟩ := sat_append.1 hsat
    obtain ⟨rfl, hagrees⟩ := hin.agrees f V m m₁ (hfits.mono hstop) hsat₁
    have hpass := hsem f V m₁ m' hfits hsat₂
    intro safe hsafe g hstarts hmem
    refine hpass safe hsafe g (fun u => hagrees g u (fun hnot => hstarts.table u ?_)
      fun mg hmg _ => hstarts.merges mg.note (List.mem_map.2 ⟨mg, hmg, rfl⟩)) hmem
    simpa [ch, Chunk.phis, Merge.note, Function.comp_def] using hnot

end HotRegion.Lowering
