import HotRegion.Proofs.Lowering.Laid

/-!
# The inputs of the merges

After the walk, every phi gets one input for each edge into its block: the value that the table at
the source of the edge has for the register, in the form that the register has at the boundaries of
blocks. The code that brings a value into this form goes to the end of the source, where it changes
nothing else.

## Key results

- `Laid.supply`: one input of one phi
- `generate_spec`: the function of a region is laid out, with all inputs of its merges
-/

namespace HotRegion.Lowering

open Isa Analysis Ssa Build
open Machine (State)
open Region (Tracked Slot Departure)

variable {c : Scope} {K : UInt32 × UInt32 → Prop} {n i j k : Nat} {d d' : Draft} {x y : Slot}
  {book book' : Book} {phi v : Value} {pred : BlockId} {own : Nat → Prop} {ch ch' : Chunk}

/-! ## Extending a phi -/

/-- The phi with one more input; other instructions stay as they are. -/
def extendInst (pred : BlockId) (v : Value) : Inst → Inst
  | .phi dst incoming => .phi dst (incoming ++ [(pred, v)])
  | inst => inst

/-- An input changes no target. -/
@[simp] theorem dst?_extendInst (inst : Inst) : (extendInst pred v inst).dst? = inst.dst? := by
  cases inst <;> rfl

/-- The merge with one more input. -/
def Merge.add (pred : BlockId) (v : Value) (m : Merge) : Merge :=
  { m with incoming := m.incoming ++ [(pred, v)] }

/-- An input of an instruction is an input of its merge. -/
theorem modify_insts {merges : List Merge} (code : List Inst) (hk : k < merges.length) :
    (merges.map Merge.inst ++ code).modify k (extendInst pred v) =
      (merges.modify k (Merge.add pred v)).map Merge.inst ++ code := by
  induction merges generalizing k with
  | nil => exact absurd hk (Nat.not_lt_zero _)
  | cons m merges ih =>
    cases k with
    | zero => rfl
    | succ k => simpa using ih (Nat.lt_of_succ_lt_succ hk)

/-- Changing one entry is not seen by a function that does not look at the change. -/
theorem map_modify {α β : Type} {f : α → α} {g : α → β} (h : ∀ a, g (f a) = g a) (l : List α)
    (k : Nat) : (l.modify k f).map g = l.map g := by
  induction l generalizing k with
  | nil => simp
  | cons a l ih =>
    cases k with
    | zero => simp [h]
    | succ k => simpa using ih k

/-- Inputs define no values. -/
theorem dsts_modify (insts : List Inst) (k : Nat) :
    dsts (insts.modify k (extendInst pred v)) = dsts insts := by
  induction insts generalizing k with
  | nil => simp
  | cons inst insts ih =>
    cases k with
    | zero => simp [dsts, List.filterMap_cons]
    | succ k =>
      have := ih k
      simp only [dsts] at this ⊢
      simp [List.filterMap_cons, this]

namespace Draft

/-- The draft with one more input of the phi at instruction `k` of block `j`. -/
def supply (d : Draft) (j k : Nat) (pred : BlockId) (v : Value) : Draft :=
  { d with builder.function.blocks :=
    d.builder.function.blocks.modify j (Block.extendPhi k pred v) }

/-- The builder knows where the phi is. -/
theorem addIncoming_run (hsite : d.builder.phiSites[phi.index]? = some (⟨j⟩, k)) :
    (liftM (addIncoming phi pred v) : Walk Unit) d = .ok ((), d.supply j k pred v) :=
  attempt_eq_ok.2 ⟨_, Builder.addIncoming_eq_ok.2 ⟨_, hsite, rfl⟩, rfl⟩

/-- An input makes no new block. -/
@[simp] theorem size_supply : (d.supply j k pred v).size = d.size := by
  simp [supply, size]

/-- An input is seen in its block alone. -/
theorem view_supply (l : Nat) : (d.supply j k pred v).view l =
    if l = j then (d.view l).map fun p => (p.1.modify k (extendInst pred v), p.2) else d.view l := by
  change (((d.builder.function.blocks.modify j (Block.extendPhi k pred v))[l]?).map
    fun b => (b.insts.toList, b.terminator)) = _
  rw [Array.getElem?_modify]
  by_cases h : l = j
  · rw [if_pos h.symm, if_pos h]
    simp only [view, Option.map_map]
    congr 1
    funext b
    simp only [Function.comp, Block.extendPhi, Array.toList_modify]
    rfl
  · rw [if_neg (Ne.symm h), if_neg h]
    rfl

/-- Inputs define no values in a draft. -/
theorem dsts_supply (l : Nat) : (d.supply j k pred v).dsts l = d.dsts l := by
  simp only [dsts, view_supply]
  by_cases h : l = j
  · rw [if_pos h]
    cases d.view l with
    | none => rfl
    | some p => exact dsts_modify p.1 k
  · rw [if_neg h]

end Draft

/-- An input changes nothing but its phi. -/
theorem grown_supply (ho : own j) : Grown own d (d.supply j k pred v) := by
  refine ⟨Nat.le_of_eq Draft.size_supply.symm, fun l _ hl => ?_, fun _ _ hl => hl,
    ⟨[], by simp [Draft.supply], by simp⟩, fun _ _ => rfl,
    fun h => ⟨fun l => ?_, fun l m w hl hm => ?_, fun l w hw => ?_, fun e he => ?_, h.sorted⟩⟩
  · rw [Draft.view_supply, if_neg]
    rintro rfl
    exact hl ho
  · rw [Draft.dsts_supply]
    exact h.nodup l
  · rw [Draft.dsts_supply] at hl hm
    exact h.apart l m w hl hm
  · rw [Draft.dsts_supply] at hw
    exact h.bound l w hw
  · rw [Draft.size_supply]
    exact h.sources e he

/-! ## Blocks with more code or more inputs -/

/-- More code at the end of a finished block, which leaves the machine alone. -/
theorem Good.grow {tys : Array Ty} {code : List Inst} {A' : Value → Prop} (h : Good c n d i ch)
    (hcur : d.cur = i) (hcode : Ssa.Code ⟨d.types, ch.stop.avail⟩ code ⟨tys, A'⟩)
    (hpure : ∀ f V m m', (⟨tys, A'⟩ : Context).Fits f → Sat f V code m m' → m' = m) :
    Good c n (d.emit tys code) i (ch.grow code ⟨tys, A'⟩) := by
  have hle : ch.stop.Le ⟨tys, A'⟩ :=
    (show ch.stop.Le ⟨d.types, ch.stop.avail⟩ from ⟨h.types, fun _ hv => hv⟩).trans hcode.le
  refine ⟨h.toBegun.emit hcur hcode fun f V m m' hfits hsat =>
    ⟨hpure f V m m' hfits hsat, fun _ _ _ hQ => hQ⟩, ?_, h.operands.mono hle, h.edges, h.nodup,
    h.slots, h.sides, h.ends⟩
  rw [Draft.view_emit, if_pos hcur.symm, h.view_eq]
  rfl

/-- More inputs of the merges of a finished block. -/
theorem Good.supply (h : Good c n d i ch) (hk : k < ch.merges.length) :
    Good c n (d.supply i k pred v) i
      { ch with merges := ch.merges.modify k (Merge.add pred v) } := by
  have hrole : ch.role = .body := h.place.role_eq_body (List.ne_nil_of_length_pos (Nat.zero_lt_of_lt hk))
  let ms := ch.merges.modify k (Merge.add pred v)
  have hphis : ms.map Merge.note = ch.merges.map Merge.note :=
    map_modify (f := Merge.add pred v) (fun _ => rfl) _ _
  have hview : (d.supply i k pred v).view i = some (ms.map Merge.inst ++ ch.code,
      some (ch.out.term c)) := by
    rw [Draft.view_supply, if_pos rfl, h.view_eq]
    simp only [Option.map_some, modify_insts _ hk, ms]
  -- Most of it is about the notes of the merges, which are the same; only `merged` reads the
  -- inputs.
  refine ⟨⟨⟨_, hview⟩, h.ordered, fun l ty hl => ?_, fun w hw => ?_, fun l mg hl => ?_, h.block, ?_,
    h.typed, h.full, fun f V m m' hfits hsat => ?_⟩, by rw [hview]; rfl, h.operands, h.edges, h.nodup,
    h.slots, h.sides, ?_⟩
  · exact h.types l ty hl
  · refine (h.avail w hw).imp_right fun ⟨mg, hmg, hdst⟩ => ?_
    have hmem : (mg.reg, w) ∈ ms.map Merge.note := by
      rw [hphis]
      exact List.mem_map.2 ⟨mg, hmg, by rw [← hdst]; rfl⟩
    obtain ⟨mg', hmg', hnote⟩ := List.mem_map.1 hmem
    exact ⟨mg', hmg', congrArg Prod.snd hnote⟩
  · have hnote : (ch.merges.map Merge.note)[l]? = some mg.note := by
      rw [← hphis, List.getElem?_map, hl]
      rfl
    rw [List.getElem?_map] at hnote
    obtain ⟨mg', hmg', heq⟩ := Option.map_eq_some_iff.1 hnote
    obtain ⟨hreg, hdst⟩ := Prod.mk.inj heq
    rw [← hreg, ← hdst]
    exact h.merged l mg' hmg'
  -- Merges are in the body of a block alone, and its role does not change.
  · have hplace := h.place
    unfold Chunk.InPlace Chunk.phis at hplace ⊢
    simp only [hrole] at hplace ⊢
    rw [hphis]
    exact hplace
  · have hdoes := h.does f V m m' hfits hsat
    unfold Chunk.Does Chunk.phis at hdoes ⊢
    simp only [hrole] at hdoes ⊢
    rw [hphis]
    exact hdoes
  · exact .of_role (.inl hrole) (by
      have hends := h.ends
      unfold Chunk.Ends at hends
      simp only [hrole] at hends
      exact hends)

/-- `ch'` is `ch` with more code at its end and more inputs of its merges. -/
structure Chunk.Continues (ch ch' : Chunk) : Prop where
  slot : ch'.slot = ch.slot
  block : ch'.block = ch.block
  role : ch'.role = ch.role
  enter : ch'.enter = ch.enter
  below : ch'.below = ch.below
  phis : ch'.phis = ch.phis
  table : ch'.table = ch.table
  stop : ch.stop.Le ch'.stop
  out : ch'.out = ch.out
  code : ∃ more, ch'.code = ch.code ++ more

/-- A chunk continues itself. -/
theorem Chunk.Continues.refl (ch : Chunk) : ch.Continues ch :=
  ⟨rfl, rfl, rfl, rfl, rfl, rfl, rfl, .refl _, rfl, [], (List.append_nil _).symm⟩

/-- Continuing twice is continuing. -/
theorem Chunk.Continues.trans {ch'' : Chunk} (h : ch.Continues ch') (h' : ch'.Continues ch'') :
    ch.Continues ch'' := by
  obtain ⟨more, hmore⟩ := h.code
  obtain ⟨more', hmore'⟩ := h'.code
  exact ⟨h'.slot.trans h.slot, h'.block.trans h.block, h'.role.trans h.role,
    h'.enter.trans h.enter, h'.below.trans h.below, h'.phis.trans h.phis, h'.table.trans h.table,
    h.stop.trans h'.stop, h'.out.trans h.out, more ++ more', by
      rw [hmore', hmore, List.append_assoc]⟩

/-- The value is what a register holds at the end of the block, in its form at the boundaries. -/
structure Chunk.Supplies (ch : Chunk) (fp : FpTouched) (reg : Tracked) (v : Value) : Prop where
  has : ch.stop.Has v (reg.ty fp)
  value : ∀ f V m m', ch.stop.Fits f → Sat f V ch.code m m' → ∀ g : State, ch.table.Agrees V g →
    V v = g.kept fp reg

/-- What a block supplies it still supplies when there is more code. -/
theorem Chunk.Supplies.mono {fp : FpTouched} {reg : Tracked} (h : ch.Supplies fp reg v)
    (hch : ch.Continues ch') : ch'.Supplies fp reg v := by
  obtain ⟨more, hmore⟩ := hch.code
  refine ⟨h.has.mono hch.stop, fun f V m m' hfits hsat g hg => ?_⟩
  rw [hmore] at hsat
  obtain ⟨m₁, hsat₁, -⟩ := sat_append.1 hsat
  rw [hch.table] at hg
  exact h.value f V m m₁ (hfits.mono hch.stop) hsat₁ g hg

/-- The layout stays when blocks get more code and more inputs. -/
theorem Laid.update (h : Laid c n d book) (htidy : d'.Tidy) (hsize : d'.size = d.size)
    (hphis : d'.phis = d.phis) (hgood : ∀ k < d.size, Good c n d' k (book' k))
    (hbook : ∀ k, (book k).Continues (book' k)) : Laid c n d' book' := by
  have hbody : ∀ x, (book.body c x).Continues (book'.body c x) := fun x => hbook _
  -- Every clause speaks of what continuing keeps: roles, slots, tables and the notes of merges.
  refine ⟨htidy, hsize ▸ h.room, h.places, hsize ▸ hgood, fun k hk q e hq => ?_, ?_, fun v => ?_,
    fun x hx hne => ?_, fun k hle hk => ?_, fun x y hx hxy => ?_, fun x phis => ?_⟩
  · rw [(hbook k).out] at hq
    rw [(hbook _).role, (hbook _).slot, (hbook _).slot, hsize]
    exact h.points k (hsize ▸ hk) q e hq
  · rw [(hbody _).role]
    exact h.start
  · rw [(hbody _).below]
    exact h.root v
  · rw [(hbody x).role]
    exact h.role x hx hne
  · obtain ⟨x, hx, hne, hbeside⟩ := h.sides k hle (hsize ▸ hk)
    refine ⟨x, hx, hne, ⟨?_, ?_, ?_, fun v hv => ?_, ?_⟩⟩
    · rw [(hbook k).slot, (hbody x).slot, hbeside.slot]
    · rw [(hbook k).block, (hbody x).block, hbeside.block]
    · rw [(hbook k).enter, (hbody x).table, hbeside.enter]
    · rw [(hbook k).below] at hv
      exact (hbody x).stop.avail v (hbeside.below v hv)
    · rw [(hbook k).role]
      exact hbeside.claim.imp fun e he => ⟨he.1, he.2.mono (hbody x).stop⟩
  · obtain ⟨henter, hbelow⟩ := h.hangs x y hx hxy
    refine ⟨?_, fun v hv => ?_⟩
    · rw [(hbody x).enter, (hbody y).table, henter]
    · rw [(hbody x).below] at hv
      exact (hbody y).stop.avail v (hbelow v hv)
  · rw [hphis, (hbody x).phis]
    exact h.merged x phis

/-! ## One input -/

/-- The chunk of a block of the region is about that block. -/
theorem Laid.slot_eq (hc : c.Sound K n) (h : Laid c n d book) (hx : c.Live x) :
    (book.body c x).slot = x := by
  have hgood := h.good _ (Nat.lt_of_lt_of_le (hc.lt_of_live hx) h.room)
  have hplace := hgood.place
  unfold Chunk.InPlace at hplace
  by_cases hne : x = Region.entrySlot
  · subst hne
    have hrole : (book (c.place Region.entrySlot).index).role = .start := h.start
    simp only [hrole] at hplace
    exact hplace.2.1
  · have hrole : (book (c.place x).index).role = .body := h.role x hx hne
    simp only [hrole] at hplace
    exact hc.place_inj ⟨_, hgood.block⟩ hx hplace.2.1.symm

/-- The merges of a block are those of the region. -/
theorem Laid.regs_eq (hc : c.Sound K n) (h : Laid c n d book) (hx : c.Live x)
    (hne : x ≠ Region.entrySlot) : (book.body c x).phis.map (·.1) = c.region.phisAt x := by
  have hgood := h.good _ (Nat.lt_of_lt_of_le (hc.lt_of_live hx) h.room)
  have hplace := hgood.place
  have hrole : (book (c.place x).index).role = .body := h.role x hx hne
  unfold Chunk.InPlace at hplace
  simp only [hrole] at hplace
  have hslot := h.slot_eq hc hx
  rw [Book.body] at hslot ⊢
  rw [hplace.2.2, hslot]

/-- A merged register is its own home, and every full table has it. -/
theorem Scope.Sound.loaded_of_merged (hc : c.Sound K n) {reg : Tracked}
    (hreg : reg ∈ c.region.phisAt x) {t : RegTable} (ht : c.Full t) :
    ∀ u ∈ Tracked.parts c.fp reg, t.Loaded u := by
  have hlive := hc.ready.usage.written reg (hc.ready.phis_written x reg hreg)
  have hhome : reg.home c.fp = reg := (hc.ready.usage.home reg hlive).1
  intro u hu
  refine ht u ?_
  rw [(Tracked.mem_parts hhome).1 hu]
  exact hlive

/-- What holds of the new description of block `i` and of the other blocks as they were holds of the
whole book. -/
theorem Book.forall_set {P : Nat → Chunk → Prop} (book : Book) (hi : P i ch')
    (hother : ∀ l, l ≠ i → P l (book l)) (l : Nat) : P l (book.set i ch' l) := by
  by_cases hli : l = i
  · rw [hli, Book.set_self]
    exact hi
  · rw [Book.set_of_ne _ _ hli]
    exact hother l hli

/-- A block that is described anew may take its place among the finished ones. -/
theorem Book.good_set {size : Nat} (book : Book) (hd : Grown (· = i) d d')
    (h : ∀ l < size, Good c n d l (book l)) (hi : Good c n d' i ch') :
    ∀ l < size, Good c n d' l (book.set i ch' l) :=
  book.forall_set (P := fun l ch => l < size → Good c n d' l ch) (fun _ => hi)
    fun l hli hl => (h l hl).mono hd hli

/-- One input of one phi: the value of its register at the end of block `i`. -/
theorem Laid.supply (hc : c.Sound K n) (h : Laid c n d book) (hx : c.Live x)
    (hne : x ≠ Region.entrySlot) {mg : Merge} (hmg : (book.body c x).merges[k]? = some mg)
    (hi : i < d.size) (hcur : d.cur = i) :
    ∃ v d' book', (do
        let v ← ((book i).table.get c.fp mg.reg : Emit Value)
        addIncoming mg.dst ⟨i⟩ v : Walk Unit) d = .ok ((), d') ∧
      Laid c n d' book' ∧ d'.cur = i ∧ d'.size = d.size ∧ d'.edges = d.edges ∧ d'.phis = d.phis ∧
      (∀ l, (book l).Continues (book' l)) ∧ (book' i).Supplies c.fp mg.reg v ∧
      (book'.body c x).merges = (book.body c x).merges.modify k (Merge.add ⟨i⟩ v) ∧
      ∀ y, c.Live y → y ≠ x → (book'.body c y).merges = (book.body c y).merges := by
  let j := (c.place x).index
  have hj : j < d.size := Nat.lt_of_lt_of_le (hc.lt_of_live hx) h.room
  have hgoodᵢ := h.good i hi
  have hreg : mg.reg ∈ c.region.phisAt x := by
    rw [← h.regs_eq hc hx hne]
    exact List.mem_map.2 ⟨mg.note, List.mem_map.2 ⟨mg, List.mem_of_getElem? hmg, rfl⟩, rfl⟩
  -- The value at the end of block `i`.
  have hle : (Site.ofContext (book i).stop).Le (d.site (book i).stop.avail) :=
    ⟨hgoodᵢ.types, fun _ hv => hv⟩
  obtain ⟨v, tys, code, A', hrun, hcode, hv, hsem⟩ := (RegTable.gives_get (hgoodᵢ.typed.mono hle)
    (hc.loaded_of_merged hreg hgoodᵢ.full)).walk
  let grown := (book i).grow code ⟨tys, A'⟩
  let d₁ := d.emit tys code
  let book₁ : Book := book.set i grown
  have hgrown₁ : Grown (· = i) d d₁ := grown_emit hcode hcur (hcur ▸ hi)
  have hgood₁ : ∀ l < d.size, Good c n d₁ l (book₁ l) :=
    book.good_set hgrown₁ h.good
      (hgoodᵢ.grow hcur hcode fun f V m m' hfits hsat => (hsem f V m m' hfits hsat).1)
  have hcont₁ : ∀ l, (book l).Continues (book₁ l) :=
    book.forall_set ⟨rfl, rfl, rfl, rfl, rfl, rfl, rfl,
      (show (book i).stop.Le ⟨d.types, (book i).stop.avail⟩ from hle).trans hcode.le, rfl, code, rfl⟩
      fun _ _ => .refl _
  have hmerges₁ : ∀ l, (book₁ l).merges = (book l).merges :=
    book.forall_set (P := fun l ch => ch.merges = (book l).merges) rfl fun _ _ => rfl
  have hsupplies₁ : (book₁ i).Supplies c.fp mg.reg v := by
    simp only [book₁, Book.set_self]
    refine ⟨hv, fun f V m m' hfits hsat g hg => ?_⟩
    obtain ⟨m₁, -, hsat₂⟩ := sat_append.1 hsat
    exact (hsem f V m₁ m' hfits hsat₂).2 g hg
  -- The input of the phi, which may be in block `i` too.
  have hsite : d₁.builder.phiSites[mg.dst.index]? = some (⟨j⟩, k) :=
    ((h.good j hj).merged k mg hmg).2
  let merging := { book₁ j with merges := (book₁ j).merges.modify k (Merge.add ⟨i⟩ v) }
  let d₂ := d₁.supply j k ⟨i⟩ v
  let book₂ : Book := book₁.set j merging
  have hgrown₂ : Grown (· = j) d₁ d₂ := grown_supply rfl
  have hkj : k < (book₁ j).merges.length := by
    rw [hmerges₁]
    exact (List.getElem?_eq_some_iff.1 hmg).1
  have hgood₂ : ∀ l < d.size, Good c n d₂ l (book₂ l) :=
    book₁.good_set hgrown₂ hgood₁ ((hgood₁ j hj).supply hkj)
  have hcont₂ : ∀ l, (book₁ l).Continues (book₂ l) :=
    book₁.forall_set ⟨rfl, rfl, rfl, rfl, rfl, map_modify (f := Merge.add ⟨i⟩ v) (fun _ => rfl) _ _,
      rfl, .refl _, rfl, [], (List.append_nil _).symm⟩ fun _ _ => .refl _
  have hsize : d₂.size = d.size := Draft.size_supply.trans Draft.size_emit
  have hcont : ∀ l, (book l).Continues (book₂ l) := fun l => (hcont₁ l).trans (hcont₂ l)
  refine ⟨v, d₂, book₂, ?_, h.update (hgrown₂.tidy (hgrown₁.tidy h.tidy)) hsize rfl hgood₂ hcont,
    hcur, hsize, rfl, rfl, hcont, hsupplies₁.mono (hcont₂ i), ?_,
    fun y hy hyx => ?_⟩
  · rw [run_bind hrun]
    exact Draft.addIncoming_run hsite
  · simp only [Book.body, book₂, merging, j, Book.set_self, hmerges₁]
  · have hplace : (c.place y).index ≠ j := fun heq => hyx (hc.place_inj hy hx heq)
    simp only [Book.body, book₂]
    rw [Book.set_of_ne _ _ hplace, hmerges₁]

/-! ## All inputs -/

/-- Every merge has inputs from just these blocks, and each input is what its register holds at the
end of the block that it comes from. -/
def Supplied (c : Scope) (book : Book) (sources : Slot → Nat → List BlockId) : Prop :=
  ∀ x, c.Live x → x ≠ Region.entrySlot → ∀ k mg, (book.body c x).merges[k]? = some mg →
    mg.incoming.map Prod.fst = sources x k ∧
      ∀ p ∈ mg.incoming, (book p.1.index).Supplies c.fp mg.reg p.2

/-- Phis of a region that is laid out get inputs from `sources`. -/
structure Fills (c : Scope) (n : Nat) (d : Draft) (book : Book) (d' : Draft) (book' : Book)
    (sources : Slot → Nat → List BlockId) : Prop where
  laid : Laid c n d' book'
  size : d'.size = d.size
  edges : d'.edges = d.edges
  phis : d'.phis = d.phis
  continues : ∀ k, (book k).Continues (book' k)
  supplied : Supplied c book' sources

variable {sources sources' : Slot → Nat → List BlockId} {d₁ d₂ : Draft} {book₁ book₂ : Book}

/-- Nothing is filled yet. -/
theorem Fills.refl (h : Laid c n d book) (hs : Supplied c book sources) :
    Fills c n d book d book sources :=
  ⟨h, rfl, rfl, rfl, fun _ => .refl _, hs⟩

/-- Inputs on top of inputs. -/
theorem Fills.trans (h : Fills c n d book d₁ book₁ sources)
    (h' : Fills c n d₁ book₁ d₂ book₂ sources') : Fills c n d book d₂ book₂ sources' :=
  ⟨h'.laid, h'.size.trans h.size, h'.edges.trans h.edges, h'.phis.trans h.phis,
    fun k => (h.continues k).trans (h'.continues k), h'.supplied⟩

/-- The sources may be given in another way. -/
theorem Fills.congr (h : Fills c n d book d' book' sources)
    (heq : ∀ y m, sources' y m = sources y m) : Fills c n d book d' book' sources' := by
  have : sources' = sources := funext fun y => funext (heq y)
  exact this ▸ h

/-- Gives one phi its input from block `i`, where the table is `t`. -/
def Scope.supplyPhi (c : Scope) (t : RegTable) (source : BlockId) (p : Tracked × Value) : Walk Unit := do
  let v ← (t.get c.fp p.1 : Emit Value)
  addIncoming p.2 source v

/-- A phi gets its input from one block. -/
theorem Laid.fills_phi (hc : c.Sound K n) (h : Laid c n d book) (hs : Supplied c book sources)
    (hx : c.Live x) (hne : x ≠ Region.entrySlot) {mg : Merge}
    (hmg : (book.body c x).merges[k]? = some mg) (hi : i < d.size) (hcur : d.cur = i) :
    ∃ d' book', c.supplyPhi (book i).table ⟨i⟩ mg.note d = .ok ((), d') ∧ d'.cur = i ∧
      Fills c n d book d' book' fun y m =>
        if y = x ∧ m = k then sources y m ++ [⟨i⟩] else sources y m := by
  obtain ⟨v, d', book', hrun, hlaid, hcur', hsize, hedges, hphis, hcont, hsupplies, hmerges, hothers⟩ :=
    h.supply hc hx hne hmg hi hcur
  refine ⟨d', book', hrun, hcur', hlaid, hsize, hedges, hphis, hcont, fun y hy hyne m mg' hmg' => ?_⟩
  have hmono : ∀ {mg : Merge}, (∀ p ∈ mg.incoming, (book p.1.index).Supplies c.fp mg.reg p.2) →
      ∀ p ∈ mg.incoming, (book' p.1.index).Supplies c.fp mg.reg p.2 := fun h p hp =>
    (h p hp).mono (hcont _)
  -- Only the merge at `k` of block `x` gets an input; the others are supplied as before.
  by_cases hyx : y = x
  · subst hyx
    rw [hmerges, List.getElem?_modify] at hmg'
    by_cases hmk : k = m
    · subst hmk
      rw [hmg] at hmg'
      simp only [if_true, Option.map_eq_map, Option.map_some, Option.some.injEq] at hmg'
      subst hmg'
      obtain ⟨hsrc, hvals⟩ := hs y hy hyne k mg hmg
      refine ⟨by simp [Merge.add, hsrc], fun p hp => ?_⟩
      rcases List.mem_append.1 hp with hp | hp
      · exact hmono hvals p hp
      · rw [List.mem_singleton.1 hp]
        exact hsupplies
    · simp only [hmk, if_false, Option.map_eq_map, Option.map_id_fun', id_eq] at hmg'
      obtain ⟨hsrc, hvals⟩ := hs y hy hyne m mg' hmg'
      exact ⟨by rw [if_neg fun h => hmk h.2.symm, hsrc], hmono hvals⟩
  · rw [hothers y hy hyx] at hmg'
    obtain ⟨hsrc, hvals⟩ := hs y hy hyne m mg' hmg'
    exact ⟨by rw [if_neg fun h => hyx h.1, hsrc], hmono hvals⟩

/-- The phis of a block from the `k`-th on get their inputs from block `i`. -/
theorem Laid.fills_phis (hc : c.Sound K n) (hx : c.Live x) (hne : x ≠ Region.entrySlot)
    (l : Phis) (h : Laid c n d book) (hs : Supplied c book sources)
    (hl : (book.body c x).phis.drop k = l) (hi : i < d.size) (hcur : d.cur = i) :
    ∃ d' book', l.forM (c.supplyPhi (book i).table ⟨i⟩) d = .ok ((), d') ∧
      Fills c n d book d' book' fun y m =>
        if y = x ∧ k ≤ m then sources y m ++ [⟨i⟩] else sources y m := by
  induction l generalizing k d book sources with
  | nil =>
    refine ⟨d, book, rfl, .refl h fun y hy hyne m mg hmg => ?_⟩
    rw [if_neg]
    · exact hs y hy hyne m mg hmg
    · rintro ⟨rfl, hkm⟩
      have hlen := List.drop_eq_nil_iff.1 hl
      have hm := (List.getElem?_eq_some_iff.1 hmg).1
      simp only [Chunk.phis, List.length_map] at hlen
      omega
  | cons p l ih =>
    have hget : (book.body c x).phis[k]? = some p := by
      rw [← List.head?_drop, hl]
      rfl
    rw [Chunk.phis, List.getElem?_map] at hget
    obtain ⟨mg, hmg, rfl⟩ := Option.map_eq_some_iff.1 hget
    obtain ⟨d₁, book₁, hrun₁, hcur₁, hf₁⟩ := h.fills_phi hc hs hx hne hmg hi hcur
    have hl₁ : (book₁.body c x).phis.drop (k + 1) = l := by
      rw [Book.body, (hf₁.continues _).phis, ← List.tail_drop]
      exact congrArg List.tail hl
    obtain ⟨d₂, book₂, hrun₂, hf₂⟩ := ih hf₁.laid hf₁.supplied hl₁ (hf₁.size ▸ hi) hcur₁
    rw [(hf₁.continues i).table] at hrun₂
    refine ⟨d₂, book₂, (run_bind hrun₁).trans hrun₂, ?_⟩
    refine (hf₁.trans hf₂).congr fun y m => ?_
    -- The merges before `k` get nothing, this one gets its input here, and those behind it by
    -- induction.
    by_cases hyx : y = x
    · rcases Nat.lt_trichotomy m k with hm | rfl | hm
      · simp [hyx, Nat.not_le_of_lt hm, show ¬ k + 1 ≤ m by omega, Nat.ne_of_lt hm]
      · simp [hyx]
      · simp [hyx, Nat.le_of_lt hm, show k + 1 ≤ m by omega, Nat.ne_of_gt hm]
    · simp [hyx]

/-- The phis of a block get their inputs from the sources of the edges `es`. -/
theorem Laid.fills_edges (hc : c.Sound K n) (hx : c.Live x) (hne : x ≠ Region.entrySlot)
    {phis : Phis} {sources : Slot → List BlockId} (es : List Edge) (h : Laid c n d book)
    (hs : Supplied c book fun y _ => sources y) (hphis : (book.body c x).phis = phis)
    (hes : ∀ e ∈ es, e.source.index < d.size ∧ e.table = (book e.source.index).table) :
    ∃ d' book', es.forM (fun e => do
        switchTo e.source
        phis.forM (c.supplyPhi e.table e.source) : Edge → Walk Unit) d = .ok ((), d') ∧
      Fills c n d book d' book' fun y _ =>
        if y = x then sources y ++ es.map Edge.source else sources y := by
  induction es generalizing d book sources with
  | nil => exact ⟨d, book, rfl, .refl h (by simpa using hs)⟩
  | cons e es ih =>
    obtain ⟨⟨hlt, htable⟩, hes⟩ := List.forall_mem_cons.1 hes
    -- Going to the source changes no block.
    have hgrown : Grown (fun _ => False) d (d.goTo e.source) := grown_goTo _
    have hgo : ∀ k < d.size, Good c n (d.goTo e.source) k (book k) := fun k hk =>
      (h.good k hk).mono hgrown id
    have h₀ : Laid c n (d.goTo e.source) book :=
      h.update (hgrown.tidy h.tidy) rfl rfl hgo fun _ => .refl _
    obtain ⟨d₁, book₁, hrun₁, hf₁⟩ := h₀.fills_phis (k := 0) (i := e.source.index) hc hx hne phis hs
      hphis hlt rfl
    have hs₁ : Supplied c book₁ fun y _ => if y = x then sources y ++ [e.source] else sources y := by
      simpa using hf₁.supplied
    obtain ⟨d₂, book₂, hrun₂, hf₂⟩ := ih hf₁.laid hs₁ ((hf₁.continues _).phis.trans hphis)
      fun e' he' => ⟨hf₁.size ▸ (hes e' he').1, (hes e' he').2.trans (hf₁.continues _).table.symm⟩
    have hstep : (do
        switchTo e.source
        phis.forM (c.supplyPhi e.table e.source) : Walk Unit) d = .ok ((), d₁) := by
      rw [run_bind (switchTo_run hlt), htable]
      exact hrun₁
    refine ⟨d₂, book₂, (run_bind hstep).trans hrun₂, ?_⟩
    have hf : Fills c n d book d₂ book₂ _ :=
      ⟨hf₂.laid, hf₂.size.trans hf₁.size, hf₂.edges.trans hf₁.edges, hf₂.phis.trans hf₁.phis,
        fun k => (hf₁.continues k).trans (hf₂.continues k), hf₂.supplied⟩
    refine hf.congr fun y m => ?_
    by_cases hyx : y = x <;> simp [hyx]

/-- The sources of the edges into a block. -/
def Draft.sourcesOf (d : Draft) (x : Slot) : List BlockId :=
  (d.edges.toList.filter (·.target == x)).map Edge.source

/-- An edge comes from the end of a block that leads to its target. -/
theorem Laid.edge_spec (h : Laid c n d book) {e : Edge} (he : e ∈ d.edges.toList) :
    e.source.index < d.size ∧ e.table = (book e.source.index).table ∧
      e.target ∈ (book e.source.index).out.slots := by
  have hlt := h.tidy.sources e he
  have hmem : e ∈ d.edges.toList.filter (·.source.index == e.source.index) := by
    simpa using he
  rw [(h.good _ hlt).edges] at hmem
  obtain ⟨y, hy, heq⟩ := List.mem_map.1 hmem
  refine ⟨hlt, ?_, ?_⟩
  · rw [← heq]
  · rw [← heq]
    exact hy

/-- The phis of the blocks `ps` get all their inputs. -/
theorem Laid.fills_blocks (hc : c.Sound K n) {sources : Slot → List BlockId}
    (ps : List (Slot × Phis)) (hsorted : Ascending.Sorted (fun p => p.1) ps) (h : Laid c n d book)
    (hs : Supplied c book fun y _ => sources y)
    (hps : ∀ p ∈ ps, c.Live p.1 ∧ p.1 ≠ Region.entrySlot ∧ (book.body c p.1).phis = p.2) :
    ∃ d' book', ps.forM (fun p => (d.edges.toList.filter (·.target == p.1)).forM fun e => do
        switchTo e.source
        p.2.forM (c.supplyPhi e.table e.source) : Slot × Phis → Walk Unit) d = .ok ((), d') ∧
      Fills c n d book d' book' fun y _ =>
        if y ∈ ps.map Prod.fst then sources y ++ d.sourcesOf y else sources y := by
  -- The edges stay the same, so they are those of the draft before the loop.
  obtain ⟨edges, hedges⟩ : ∃ edges, edges = d.edges := ⟨_, rfl⟩
  simp only [Draft.sourcesOf, ← hedges]
  induction ps generalizing d book sources with
  | nil => exact ⟨d, book, rfl, .refl h (by simpa using hs)⟩
  | cons p ps ih =>
    obtain ⟨⟨hx, hne, hphis⟩, hps⟩ := List.forall_mem_cons.1 hps
    obtain ⟨hlt, hsorted⟩ := List.pairwise_cons.1 hsorted
    have hnot : p.1 ∉ ps.map Prod.fst := by
      intro hmem
      obtain ⟨q, hq, heq⟩ := List.mem_map.1 hmem
      have hpq : p.1 < q.1 := hlt q hq
      rw [heq] at hpq
      exact absurd hpq (Nat.lt_irrefl _)
    obtain ⟨d₁, book₁, hrun₁, hf₁⟩ := h.fills_edges hc hx hne
      (edges.toList.filter (·.target == p.1)) hs hphis fun e he => by
        obtain ⟨h₁, h₂, -⟩ := h.edge_spec (hedges ▸ (List.mem_filter.1 he).1)
        exact ⟨h₁, h₂⟩
    obtain ⟨d₂, book₂, hrun₂, hf₂⟩ := ih hsorted hf₁.laid hf₁.supplied
      (fun q hq => ⟨(hps q hq).1, (hps q hq).2.1, (hf₁.continues _).phis.trans (hps q hq).2.2⟩)
      (hedges.trans hf₁.edges.symm)
    refine ⟨d₂, book₂, (run_bind hrun₁).trans hrun₂, ?_⟩
    refine (hf₁.trans hf₂).congr fun y _ => ?_
    have hmem : y ∈ (p :: ps).map Prod.fst ↔ y = p.1 ∨ y ∈ ps.map Prod.fst := List.mem_cons
    by_cases hy : y = p.1
    · subst hy
      simp [hnot]
    · by_cases hyps : y ∈ ps.map Prod.fst
      · rw [if_pos (hmem.2 (.inr hyps)), if_pos hyps, if_neg hy]
      · rw [if_neg fun h => (hmem.1 h).elim hy hyps, if_neg hyps, if_neg hy]

/-- All phis get all their inputs. -/
theorem fillPhis_spec (hc : c.Sound K n) (h : Laid c n d book)
    (hbare : ∀ x, c.Live x → x ≠ Region.entrySlot → (book.body c x).Bare) :
    ∃ d' book', c.fillPhis d = .ok ((), d') ∧ Laid c n d' book' ∧
      Supplied c book' fun y _ => d'.sourcesOf y := by
  have hs : Supplied c book fun _ _ => [] := by
    intro x hx hne k mg hmg
    have hnil : mg.incoming = [] := hbare x hx hne mg (List.mem_of_getElem? hmg)
    simp [hnil]
  have hsorted : Ascending.Sorted (fun p : Slot × Phis => id p.1) d.phis := h.tidy.sorted
  obtain ⟨d', book', hrun, hf⟩ := h.fills_blocks hc d.phis h.tidy.sorted hs fun p hp => by
    obtain ⟨hx, hne, heq⟩ := (h.merged p.1 p.2).1 ((Ascending.lookup_eq_some_iff hsorted).2 hp)
    exact ⟨hx, hne, heq.symm⟩
  refine ⟨d', book', ?_, hf.laid, fun x hx hne k mg hmg => ?_⟩
  · have hget : (get : Walk Draft) d = .ok (d, d) := rfl
    exact (run_bind hget).trans hrun
  · obtain ⟨hsrc, hvals⟩ := hf.supplied x hx hne k mg hmg
    refine ⟨hsrc.trans ?_, hvals⟩
    have hmem : x ∈ d.phis.map Prod.fst := by
      have := (h.merged x _).2 ⟨hx, hne, rfl⟩
      exact List.mem_map.2 ⟨_, (Ascending.lookup_eq_some_iff hsorted).1 this, rfl⟩
    simp only [if_pos hmem, List.nil_append, Draft.sourcesOf, hf.edges]

/-! ## The function of a region -/

/-- The function of a ready region is made, and it is laid out with all inputs of its merges. -/
theorem generate_spec {r : Region} {u : Region.Usage} {config : Config}
    (hready : Region.Ready K config.countInstructions r u)
    (hcan : ∀ s b, s ≠ Region.entrySlot → r.block? s = some b → ∀ w ∈ b.words,
      (decode w).canCompile = true)
    (hmark : ∀ s b, s ≠ Region.entrySlot → r.block? s = some b → b.isRegionEntry = false) :
    ∃ n d book, generate r u config = .ok d.builder.function ∧ (Scope.of r u config).Sound K n ∧
      Laid (.of r u config) n d book ∧
      Supplied (.of r u config) book fun y _ => d.sourcesOf y := by
  obtain ⟨blocks, b, hdeclare, hblank, hsound, hplaces⟩ := sound_declareBlocks hready hcan hmark
    s!"region_{Text.hexDigits8 r.entryAddr.toNat}"
  let c : Scope := ⟨r, u, config, blocks⟩
  obtain ⟨d₁, book₁, hrun₁, hlaid₁, hbare⟩ := visit_entry_spec hsound hblank rfl hplaces
  obtain ⟨d₂, book₂, hrun₂, hlaid₂, hsupplied⟩ := fillPhis_spec hsound hlaid₁ hbare
  have hscope : Scope.of r u config = c := by
    rw [Scope.of, hdeclare]
  rw [hscope]
  refine ⟨_, d₂, book₂, ?_, hsound, hlaid₂, hsupplied⟩
  -- The walk is the visit of the entry, with all blocks below it, and the inputs after that.
  have hwalk : (do
      let zero ← word 0
      c.visit (r.slots.size + 1) Region.entrySlot (.new zero)
      c.fillPhis : Walk Unit) ⟨b, [], #[], 0⟩ = .ok ((), d₂) := by
    have hassoc : (do
        let zero ← word 0
        c.visit (r.slots.size + 1) Region.entrySlot (.new zero)
        c.fillPhis : Walk Unit) = (do
        (do
          let zero ← word 0
          c.visit (r.slots.size + 1) Region.entrySlot (.new zero) : Walk Unit)
        c.fillPhis : Walk Unit) := by
      simp only [bind_assoc]
    rw [hassoc]
    exact (run_bind hrun₁).trans hrun₂
  unfold generate
  rw [hdeclare]
  change (((do
      let zero ← word 0
      c.visit (r.slots.size + 1) Region.entrySlot (.new zero)
      c.fillPhis : Walk Unit) ⟨b, [], #[], 0⟩) >>= fun p => pure p.2.builder.function) = _
  rw [hwalk]
  rfl

end HotRegion.Lowering
