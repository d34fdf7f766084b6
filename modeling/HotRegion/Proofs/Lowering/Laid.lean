import HotRegion.Proofs.Lowering.Walk

/-!
# The layout of a whole region

Before the walk, every block of the region gets a block of the function. The synthetic entry loads
the registers, and the walk makes the rest below it. `Laid` says that every block of the function is
described by a book, and how the descriptions hang together.

## Key results

- `sound_declareBlocks`: the blocks of a region have blocks of the function of their own
- `visit_entry_spec`: the walk from the synthetic entry lays out the region
-/

namespace HotRegion.Lowering

open Isa Analysis Ssa Build
open Machine (State)
open Region (Tracked Slot Departure)

variable {c : Scope} {K : UInt32 × UInt32 → Prop} {n i : Nat} {d d' : Draft} {x y s : Slot}
  {book book' : Book}

/-! ## Places -/

/-- The blocks of the function for blocks of the region, with `k` the next free one. -/
def placesFrom : Nat → List (Slot × Region.Block) → List (Slot × BlockId)
  | _, [] => []
  | k, (s, b) :: l =>
    if b.isRegionEntry then (s, Function.entry) :: placesFrom k l
    else (s, ⟨k⟩) :: placesFrom (k + 1) l

/-- The number of blocks other than the synthetic entry. -/
def bodyCount (l : List (Slot × Region.Block)) : Nat := l.countP fun p => !p.2.isRegionEntry

/-- A function with only empty blocks. -/
structure Blank (b : Builder) : Prop where
  blocks : ∀ blk ∈ b.function.blocks, blk.insts = #[] ∧ blk.terminator = none
  types : b.function.types = #[]
  sites : b.phiSites = ∅
  current : b.current = Function.entry

/-- Every block of the region has a place. -/
theorem keys_placesFrom (k : Nat) (l : List (Slot × Region.Block)) :
    (placesFrom k l).map Prod.fst = l.map Prod.fst := by
  induction l generalizing k with
  | nil => rfl
  | cons p l ih =>
    unfold placesFrom
    split <;> simp [ih]

/-- A place is the entry of the function, or one of the blocks that were declared. -/
theorem mem_placesFrom {k : Nat} {l : List (Slot × Region.Block)} {id : BlockId}
    (h : (s, id) ∈ placesFrom k l) : ∃ b, (s, b) ∈ l ∧
      (b.isRegionEntry = true ∧ id = Function.entry ∨
        b.isRegionEntry = false ∧ k ≤ id.index ∧ id.index < k + bodyCount l) := by
  induction l generalizing k with
  | nil => cases h
  | cons p l ih =>
    -- The entry has the first place of the function, and every other block takes the next free one.
    unfold placesFrom at h
    split at h
    · rename_i hentry
      rcases List.mem_cons.1 h with h | h
      · cases h
        exact ⟨p.2, List.mem_cons_self, .inl ⟨hentry, rfl⟩⟩
      · obtain ⟨b, hb, h⟩ := ih h
        refine ⟨b, List.mem_cons_of_mem _ hb, h.imp_right fun ⟨h₁, h₂, h₃⟩ => ⟨h₁, h₂, ?_⟩⟩
        simpa [bodyCount, hentry] using h₃
    · rename_i hentry
      have hcount : bodyCount (p :: l) = bodyCount l + 1 := by simp [bodyCount, hentry]
      rcases List.mem_cons.1 h with h | h
      · cases h
        refine ⟨p.2, List.mem_cons_self, .inr ⟨by simpa using hentry, Nat.le_refl _, ?_⟩⟩
        rw [hcount]
        exact Nat.lt_add_of_pos_right (Nat.succ_pos _)
      · obtain ⟨b, hb, h⟩ := ih h
        refine ⟨b, List.mem_cons_of_mem _ hb, h.imp_right fun ⟨h₁, h₂, h₃⟩ => ⟨h₁, ?_, ?_⟩⟩ <;> omega

/-- No block of the function is given away twice. -/
theorem placesFrom_inj {k : Nat} {l : List (Slot × Region.Block)} {id : BlockId} {t : Slot}
    (hk : 0 < k) (hid : id ≠ Function.entry) (hs : (s, id) ∈ placesFrom k l)
    (ht : (t, id) ∈ placesFrom k l) : s = t := by
  -- Any place but the entry is one of the blocks declared from here on.
  have hpos : ∀ {k : Nat} {l : List (Slot × Region.Block)} {s : Slot}, (s, id) ∈ placesFrom k l →
      k ≤ id.index := by
    intro k l s h
    obtain ⟨_, -, ⟨-, h⟩ | ⟨-, h, -⟩⟩ := mem_placesFrom h
    · exact absurd h hid
    · exact h
  induction l generalizing k with
  | nil => cases hs
  | cons p l ih =>
    unfold placesFrom at hs ht
    split at hs
    · rename_i hentry
      rw [if_pos hentry] at ht
      rcases List.mem_cons.1 hs with hs | hs
      · cases hs
        exact absurd rfl hid
      · rcases List.mem_cons.1 ht with ht | ht
        · cases ht
          exact absurd rfl hid
        · exact ih hk hs ht
    · rename_i hentry
      rw [if_neg hentry] at ht
      rcases List.mem_cons.1 hs with hs | hs <;> rcases List.mem_cons.1 ht with ht | ht
      · cases hs
        cases ht
        rfl
      · cases hs
        exact absurd (hpos ht) (Nat.not_succ_le_self _)
      · cases ht
        exact absurd (hpos hs) (Nat.not_succ_le_self _)
      · exact ih (Nat.succ_pos k) hs ht

/-- Every declared block is given away. -/
theorem exists_placesFrom {k j : Nat} {l : List (Slot × Region.Block)} (hle : k ≤ j)
    (hlt : j < k + bodyCount l) : ∃ s, (s, ⟨j⟩) ∈ placesFrom k l := by
  induction l generalizing k with
  | nil => simp [bodyCount] at hlt; omega
  | cons p l ih =>
    unfold placesFrom
    split
    · rename_i hentry
      obtain ⟨s, hs⟩ := ih hle (by simpa [bodyCount, hentry] using hlt)
      exact ⟨s, List.mem_cons_of_mem _ hs⟩
    · rename_i hentry
      have hcount : bodyCount (p :: l) = bodyCount l + 1 := by simp [bodyCount, hentry]
      by_cases hj : j = k
      · exact ⟨p.1, hj ▸ List.mem_cons_self⟩
      · obtain ⟨s, hs⟩ := ih (k := k + 1) (by omega) (by omega)
        exact ⟨s, List.mem_cons_of_mem _ hs⟩

/-- Declares the block of the function for one block of the region. -/
private def declareOne (p : Slot × Region.Block) : Build (Slot × BlockId) := do
  return (p.1, ← if p.2.isRegionEntry then pure Function.entry else declareBlock p.2.name)

/-- Declaring a block for each block of a list. -/
private theorem mapM_declare (l : List (Slot × Region.Block)) (b : Builder) (hb : Blank b) :
    ∃ b', l.mapM declareOne b = (placesFrom b.function.blocks.size l, b') ∧
      Blank b' ∧ b'.function.blocks.size = b.function.blocks.size + bodyCount l := by
  induction l generalizing b with
  | nil => exact ⟨b, rfl, hb, rfl⟩
  | cons p l ih =>
    rw [List.mapM_cons]
    unfold placesFrom
    cases hentry : p.2.isRegionEntry with
    | true =>
      obtain ⟨b', hrun, hblank, hsize⟩ := ih b hb
      refine ⟨b', ?_, hblank, by simpa [bodyCount, hentry] using hsize⟩
      have hone : declareOne p b = ((p.1, Function.entry), b) := by
        simp only [declareOne, hentry, if_true, pure_bind]
        rfl
      change (let q := l.mapM declareOne (declareOne p b).2; ((declareOne p b).1 :: q.1, q.2)) = _
      rw [hone, hrun]
      rfl
    | false =>
      -- The block is declared behind those there are, and is empty.
      let b₁ : Builder :=
        { b with function.blocks := b.function.blocks.push ⟨p.2.name, none, #[], #[], none⟩ }
      have hblank₁ : Blank b₁ := by
        refine ⟨fun blk hblk => ?_, hb.types, hb.sites, hb.current⟩
        rcases Array.mem_push.1 hblk with hblk | rfl
        · exact hb.blocks blk hblk
        · exact ⟨rfl, rfl⟩
      have hsize₁ : b₁.function.blocks.size = b.function.blocks.size + 1 := Array.size_push _
      obtain ⟨b', hrun, hblank, hsize⟩ := ih b₁ hblank₁
      refine ⟨b', ?_, hblank, ?_⟩
      · have hone : declareOne p b = ((p.1, ⟨b.function.blocks.size⟩), b₁) := by
          simp only [declareOne, hentry, Bool.false_eq_true, if_false]
          rfl
        change (let q := l.mapM declareOne (declareOne p b).2; ((declareOne p b).1 :: q.1, q.2)) = _
        rw [hone, hrun, hsize₁]
        rfl
      · rw [hsize, hsize₁]
        simp [bodyCount, hentry]
        omega

/-! ## Scopes -/

/-- The first builder has an empty entry. -/
theorem blank_new (name : String) : Blank (.new name) where
  blocks blk h := by
    rw [show (Builder.new name).function.blocks = #[⟨"entry", none, #[], #[], none⟩] from rfl] at h
    rw [Array.mem_singleton.1 h]
    exact ⟨rfl, rfl⟩
  types := rfl
  sites := rfl
  current := rfl

/-- Every block of the region gets a block of the function. -/
theorem declareBlocks_run (r : Region) (name : String) :
    ∃ b, declareBlocks r (.new name) = (placesFrom 1 r.blocks, b) ∧ Blank b ∧
      b.function.blocks.size = 1 + bodyCount r.blocks :=
  mapM_declare r.blocks (.new name) (blank_new name)

/-- A block of the region has one place. -/
theorem lookup_placesFrom {r : Region} {k : Nat} {j : BlockId} :
    (placesFrom k r.blocks).lookup s = some j ↔ (s, j) ∈ placesFrom k r.blocks := by
  have hsorted : Ascending.Sorted (fun p : Slot × BlockId => id p.1) (placesFrom k r.blocks) := by
    have hkeys := r.sorted_slots
    rw [← keys_placesFrom k r.blocks] at hkeys
    exact List.pairwise_map.1 hkeys
  exact Ascending.lookup_eq_some_iff hsorted

/-- Every block of the region has its place. -/
theorem exists_place {r : Region} {b : Region.Block} (h : r.block? s = some b) :
    ∃ j, (s, j) ∈ placesFrom 1 r.blocks := by
  have hmem : s ∈ (placesFrom 1 r.blocks).map Prod.fst := by
    rw [keys_placesFrom]
    exact List.mem_map.2 ⟨(s, b), Region.mem_blocks.2 h, rfl⟩
  obtain ⟨⟨_, j⟩, hp, rfl⟩ := List.mem_map.1 hmem
  exact ⟨j, hp⟩

/-- The blocks of a ready region have blocks of the function of their own, and the function has no
others. -/
theorem sound_declareBlocks {r : Region} {u : Region.Usage} {config : Config}
    (hready : Region.Ready K config.countInstructions r u)
    (hcan : ∀ s b, s ≠ Region.entrySlot → r.block? s = some b → ∀ w ∈ b.words,
      (decode w).canCompile = true)
    (hmark : ∀ s b, s ≠ Region.entrySlot → r.block? s = some b → b.isRegionEntry = false)
    (name : String) :
    ∃ blocks b, declareBlocks r (.new name) = (blocks, b) ∧ Blank b ∧
      Scope.Sound ⟨r, u, config, blocks⟩ K b.function.blocks.size ∧
      ∀ k < b.function.blocks.size, ∃ s, (∃ blk, r.block? s = some blk) ∧
        (Scope.place ⟨r, u, config, blocks⟩ s).index = k := by
  obtain ⟨b, hrun, hblank, hsize⟩ := declareBlocks_run r name
  let blocks := placesFrom 1 r.blocks
  have hlookup : ∀ s k, blocks.lookup s = some k ↔ (s, k) ∈ blocks := fun s k => lookup_placesFrom
  let c : Scope := ⟨r, u, config, blocks⟩
  -- Every block of the region is in the list, with its place.
  have hplace : ∀ s blk, r.block? s = some blk → (s, c.place s) ∈ blocks := by
    intro s blk hs
    obtain ⟨j, hj⟩ := exists_place hs
    rwa [show c.place s = j by simp [Scope.place, c, (hlookup s j).2 hj]]
  obtain ⟨eb, heb, hemark, -⟩ := hready.entry
  have hentry : ∀ s blk, r.block? s = some blk → (blk.isRegionEntry = true ↔ s = Region.entrySlot) := by
    intro s blk hs
    constructor
    · intro h
      refine Classical.byContradiction fun hne => ?_
      rw [hmark s blk hne hs] at h
      cases h
    · rintro rfl
      rw [heb] at hs
      cases hs
      simp [Region.Block.isRegionEntry, hemark]
  have hcases : ∀ s blk, r.block? s = some blk →
      s = Region.entrySlot ∧ c.place s = Function.entry ∨
        s ≠ Region.entrySlot ∧ 1 ≤ (c.place s).index ∧
          (c.place s).index < 1 + bodyCount r.blocks := by
    intro s blk hs
    obtain ⟨blk', hblk', h⟩ := mem_placesFrom (hplace s blk hs)
    have hs' := Region.mem_blocks.1 hblk'
    rcases h with ⟨h, hid⟩ | ⟨h, hle, hlt⟩
    · exact .inl ⟨(hentry s blk' hs').1 h, hid⟩
    · refine .inr ⟨fun hse => ?_, hle, hlt⟩
      rw [(hentry s blk' hs').2 hse] at h
      cases h
  refine ⟨blocks, b, hrun, hblank, ⟨hready, hcan, hmark, fun s blk hs => ⟨?_, ?_⟩, ?_, ?_⟩, ?_⟩
  · unfold Scope.blockOf
    rw [(hlookup s _).2 (hplace s blk hs)]
  · rw [hsize]
    rcases hcases s blk hs with ⟨-, h⟩ | ⟨-, -, h⟩
    · change (c.place s).index < _
      rw [h]
      exact Nat.lt_add_right _ Nat.one_pos
    · exact h
  · rcases hcases _ eb heb with ⟨-, h⟩ | ⟨h, -⟩
    · exact h
    · exact absurd rfl h
  · intro s t a b hs ht heq
    have heq' : c.place s = c.place t := congrArg BlockId.mk heq
    rcases hcases s a hs with ⟨rfl, h⟩ | ⟨-, h, -⟩
    · rcases hcases t b ht with ⟨rfl, -⟩ | ⟨-, h', -⟩
      · rfl
      · rw [← heq', h] at h'
        cases h'
    · refine placesFrom_inj Nat.one_pos ?_ (hplace s a hs) (heq' ▸ hplace t b ht)
      intro hid
      rw [hid] at h
      cases h
  · intro k hk
    rcases Nat.eq_zero_or_pos k with rfl | hpos
    · refine ⟨Region.entrySlot, ⟨eb, heb⟩, ?_⟩
      rcases hcases _ eb heb with ⟨-, h⟩ | ⟨h, -⟩
      · exact congrArg BlockId.index h
      · exact absurd rfl h
    · obtain ⟨s, hs⟩ := exists_placesFrom hpos (hsize ▸ hk)
      obtain ⟨blk, hblk, -⟩ := mem_placesFrom hs
      refine ⟨s, ⟨blk, Region.mem_blocks.1 hblk⟩, ?_⟩
      simp [Scope.place, (hlookup s _).2 hs]

/-! ## The whole region -/

/-- Every block of the function is as the book says. A block of the region starts from the end of
its immediate dominator, and every other block but the first is on the side of a block of the
region. -/
structure Laid (c : Scope) (n : Nat) (d : Draft) (book : Book) : Prop where
  tidy : d.Tidy
  room : n ≤ d.size
  places : ∀ k < n, ∃ x, c.Live x ∧ (c.place x).index = k
  good : ∀ k < d.size, Good c n d k (book k)
  points : ∀ k < d.size, ∀ q e, .side q e ∈ (book k).out.ways →
    n ≤ q.index ∧ q.index < d.size ∧ (book q.index).role.claim = some e ∧
      (book q.index).slot = (book k).slot
  start : (book.body c Region.entrySlot).role = .start
  root : ∀ v, ¬ (book.body c Region.entrySlot).below v
  role : ∀ x, c.Live x → x ≠ Region.entrySlot → (book.body c x).role = .body
  sides : ∀ k, n ≤ k → k < d.size →
    ∃ x, c.Live x ∧ x ≠ Region.entrySlot ∧ (book.body c x).Beside (book k)
  hangs : ∀ x y, c.Live x → c.idom x = some y → (book.body c x).HangsBelow (book.body c y)
  merged : ∀ x phis, d.phis.lookup x = some phis ↔
    c.Live x ∧ x ≠ Region.entrySlot ∧ phis = (book.body c x).phis

/-! ## The synthetic entry -/

/-- The draft before the walk. -/
def Draft.ofBuilder (b : Builder) : Draft := ⟨b, [], #[], 0⟩

/-- The blocks are empty before the walk. -/
theorem Blank.view {b : Builder} (h : Blank b) (hi : i < b.function.blocks.size) :
    (Draft.ofBuilder b).view i = some ([], none) := by
  obtain ⟨hinsts, hterm⟩ := h.blocks _ (Array.getElem_mem hi)
  simp [Draft.view, Draft.ofBuilder, hi, hinsts, hterm]

/-- The first draft is tidy. -/
theorem Blank.tidy {b : Builder} (h : Blank b) : (Draft.ofBuilder b).Tidy := by
  have hdsts : ∀ i, (Draft.ofBuilder b).dsts i = [] := by
    intro i
    rcases Nat.lt_or_ge i b.function.blocks.size with hi | hi
    · rw [Draft.dsts_of_view (h.view hi)]
      rfl
    · simp [Draft.dsts, Draft.view_eq_none (d := Draft.ofBuilder b) hi]
  exact ⟨fun i => by simp [hdsts], fun i j v hv => by simp [hdsts] at hv,
    fun i v hv => by simp [hdsts] at hv, fun e he => by simp [Draft.ofBuilder] at he, .nil⟩

/-- The code of the synthetic entry: the constant of `$0`, and the loads. -/
def Scope.entryCode (c : Scope) : Emit RegTable := do
  let zero ← word 0
  c.loadLiveIn (.new zero)

/-- The code of the synthetic entry loads the guest into the table, which agrees with it from then
on. -/
theorem yields_entryCode {s : Site}
    (hu : c.usage.Describes c.region c.config.countInstructions) :
    Yields s c.entryCode
      (fun t s' => t.Typed s' ∧ c.Full t)
      fun t V m m' => m' = m ∧ ∀ pc, t.Agrees V (m.state.enter pc) := by
  refine Gives.bind (gives_word 0) fun zero s₁ h₁ hzero => ?_
  refine (yields_loadLiveIn (typed_new hzero) fun reg hreg =>
    ⟨(hu.home reg hreg).1, (hu.home reg hreg).2.1⟩).imp (fun t s' _ h => ⟨h.1.typed, h.2⟩) ?_
  rintro t V m m' ⟨rfl, hagrees⟩ hval
  refine ⟨rfl, fun pc => hagrees _ (fun u hu => State.unit_enter _ pc hu) (agrees_new hval ?_)⟩
  rw [State.reg_enter, if_pos rfl]

/-- The steps of the walk at the synthetic entry. -/
private theorem visit_entry_eq (hc : c.Sound K n) {fuel : Nat} {first : Slot}
    (hfirst : c.region.firstBlock? = some first) (hcur : d.builder.current = Function.entry)
    (hsize : 0 < d.size) :
    (do
      let zero ← word 0
      c.visit (fuel + 1) Region.entrySlot (.new zero) : Walk Unit) d = (do
      let t ← (c.entryCode : Emit RegTable)
      c.jumpTo first t
      (c.children Region.entrySlot).forM fun a => c.visit fuel a t : Walk Unit) d := by
  obtain ⟨b, hb, hbmark, -⟩ := hc.ready.entry
  obtain ⟨hplace, -⟩ := hc.place _ b hb
  have hmark : b.isRegionEntry = true := by simp [Region.Block.isRegionEntry, hbmark]
  have hguest : ∀ d', (liftM (c.guestBlock Region.entrySlot) : Walk Region.Block) d' =
      .ok (b, d') := by
    intro d'
    simp only [Scope.guestBlock, Region.block, hb]
    rfl
  have hblock : ∀ d', (liftM (c.blockOf Region.entrySlot) : Walk BlockId) d' =
      .ok (Function.entry, d') := fun d' => by
    rw [hplace, hc.entry]
    rfl
  -- The zero register gets its constant in the entry, where the walk begins.
  obtain ⟨zero, tys, code, A', hword, -⟩ := (gives_word (s := d.site fun _ => True) 0).walk
  let d₁ := d.emit tys code
  have hswitch : (liftM (switchTo Function.entry) : Walk Unit) d₁ = .ok ((), d₁) := by
    have hrun : (liftM (switchTo Function.entry) : Walk Unit) d₁ = .ok ((), d₁.goTo Function.entry) :=
      switchTo_run (by rw [Draft.size_emit]; exact hsize)
    -- The walk stands at the entry already.
    have hsame : d₁.goTo Function.entry = d₁ := by
      have : d₁.builder.current = Function.entry := hcur
      rw [Draft.goTo, ← this]
    rw [hrun, hsame]
  have hstep : c.visit (fuel + 1) Region.entrySlot (.new zero) d₁ = (do
      let t ← (c.loadLiveIn (.new zero) : Emit RegTable)
      c.jumpTo first t
      (c.children Region.entrySlot).forM fun a => c.visit fuel a t : Walk Unit) d₁ := by
    rw [Scope.visit]
    refine (run_bind (hguest d₁)).trans ((run_bind (hblock d₁)).trans ((run_bind hswitch).trans ?_))
    simp only [hmark, Scope.enterRegion, hfirst, if_true, bind_assoc, pure_bind, Bool.not_true,
      Bool.false_eq_true, if_false, bind_pure_unit]
    rfl
  have hcode : (liftM c.entryCode : Walk RegTable) d =
      (liftM (c.loadLiveIn (.new zero)) : Walk RegTable) d₁ := by
    rw [Scope.entryCode, liftEmit_bind, run_bind hword]
  refine (run_bind hword).trans (hstep.trans ?_)
  change ((liftM (c.loadLiveIn (.new zero)) : Walk RegTable) d₁ >>= _) =
    ((liftM c.entryCode : Walk RegTable) d >>= _)
  rw [hcode]

/-- The walk comes to the end of the synthetic entry. -/
private theorem enterRegion_run {t : RegTable} {first : Slot} {d' : Draft}
    (hfirst : c.region.firstBlock? = some first)
    (hcode : (liftM c.entryCode : Walk RegTable) d = .ok (t, d₁))
    (hjump : c.jumpTo first t d₁ = .ok ((), d')) :
    ∃ zero d₀, c.enterRegion (.new zero) d₀ = .ok (t, d') := by
  obtain ⟨zero, tys, code, -, hword, -⟩ := (gives_word (s := d.site fun _ => True) 0).walk
  rw [Scope.entryCode, liftEmit_bind, run_bind hword] at hcode
  refine ⟨zero, d.emit tys code, ?_⟩
  simp only [Scope.enterRegion, hfirst]
  exact (run_bind hcode).trans (run_bind hjump)

/-- All other blocks are under the entry. -/
theorem under_entry_iff (hc : c.Sound K n) :
    c.Under Region.entrySlot x ↔ c.Live x ∧ x ≠ Region.entrySlot := by
  obtain ⟨eb, heb, -⟩ := hc.ready.entry
  have hiff := hc.below_iff ⟨eb, heb⟩ x
  constructor
  · intro hx
    exact ⟨(hiff.2 (.inr hx)).1, hc.ne_of_under hx⟩
  · rintro ⟨hx, hne⟩
    exact (hiff.1 ⟨hx, Flow.Graph.dominates_entry _ x⟩).resolve_left hne

/-- The synthetic entry has the entry of the function for its place. -/
theorem place_entry (hc : c.Sound K n) : (c.place Region.entrySlot).index = 0 :=
  congrArg BlockId.index hc.entry

/-- Block 0 of the function is for the synthetic entry alone. -/
theorem place_ne_zero (hc : c.Sound K n) (hx : c.Live x) (hne : x ≠ Region.entrySlot) :
    (c.place x).index ≠ 0 := by
  obtain ⟨eb, heb, -⟩ := hc.ready.entry
  exact fun h => hne (hc.place_inj hx ⟨eb, heb⟩ (h.trans (place_entry hc).symm))

/-- The code of the synthetic entry is made, and then the jump to the first block. -/
private structure Entered (c : Scope) (n : Nat) (first : Slot) (d d₁ d₂ : Draft) (ch : Chunk) :
    Prop where
  code : (liftM c.entryCode : Walk RegTable) d = .ok (ch.table, d₁)
  jump : c.jumpTo first ch.table d₁ = .ok ((), d₂)
  grown : Grown (· = 0) d d₂
  size : d₂.size = n
  phis : d₂.phis = []
  good : Good c n d₂ 0 ch
  role : ch.role = .start
  root : ∀ v, ¬ ch.below v
  out : ch.out = .goto (.edge first)

/-- The synthetic entry is made with its jump to the first block. -/
private theorem exists_entered (hc : c.Sound K n) {b : Builder} (hblank : Blank b)
    (hn : n = b.function.blocks.size) {first : Slot} (hfirst : c.region.firstBlock? = some first)
    (hedge : first ∈ c.region.succs Region.entrySlot) :
    ∃ d₁ d₂ ch, Entered c n first (Draft.ofBuilder b) d₁ d₂ ch := by
  let d := Draft.ofBuilder b
  obtain ⟨eb, heb, -⟩ := hc.ready.entry
  have hlt : 0 < d.size := by
    have := hc.lt_of_live ⟨eb, heb⟩
    change 0 < b.function.blocks.size
    omega
  obtain ⟨t, tys, code, A, hrun, hcode, ⟨htyped, hfull⟩, hsem⟩ :=
    (yields_entryCode (s := d.site fun _ => False) hc.ready.usage).walk
  let ch : Chunk :=
    { slot := Region.entrySlot, block := eb, role := .start, enter := t, below := fun _ => False
      merges := [], start := ⟨d.types, fun _ => False⟩, code := code, stop := ⟨tys, A⟩, table := t
      out := .goto (.edge first) }
  let d₁ := d.emit tys code
  let d₂ := d₁.note first t
  let d₃ := d₂.finish (.jump (c.place first))
  have hcur : d.cur = 0 := congrArg BlockId.index hblank.current
  have hcur₁ : d₁.cur = 0 := hcur
  have hview₁ : d₁.view 0 = some (code, none) := by
    rw [Draft.view_emit, if_pos hcur.symm, hblank.view hlt]
    rfl
  have hg₁ : Grown (· = 0) d d₁ := grown_emit hcode hcur (hcur ▸ hlt)
  have hg₂ : Grown (· = 0) d₁ d₂ := grown_note first t hcur₁ (by rw [hcur₁, Draft.size_emit]; exact hlt)
  have hg₃ : Grown (· = 0) d₂ d₃ := grown_finish _ hcur₁
  have hbegun : Begun c n d₁ 0 ch fun _ _ _ => False := {
    view := ⟨none, hview₁⟩
    ordered := hcode
    types := fun _ _ hj => hj
    avail := fun _ hv => hv.elim
    merged := fun k mg hk => by cases hk
    block := heb
    place := ⟨rfl, rfl, rfl⟩
    typed := htyped.mono (Context.Le.refl _)
    full := hfull
    does := fun f V m m' hfits hsat => hsem f V m m' hfits hsat }
  have hfirstMem : first ∈ eb.succs := by
    rw [← Region.succs_of_block heb]
    exact hedge
  -- The one edge is noted before the block ends, with the table that is current then.
  have hedges : d₂.edges.toList = [⟨first, ⟨0⟩, t⟩] := by
    have hnil : d₁.edges.toList = [] := rfl
    rw [show d₂.edges.toList = d₁.edges.toList ++ [⟨first, ⟨d₁.cur⟩, t⟩] from
      Draft.edges_note first t, hnil, hcur₁]
    rfl
  have hgood : Good c n d₃ 0 ch := by
    refine (hbegun.mono hg₂ rfl).close (o := .goto (.edge first)) hcur₁ (fun _ _ _ _ h => h.elim)
      trivial ?_ (show [first].Nodup by simp) ?_ ?_ ⟨first, hfirst, rfl⟩
    · rw [hedges]
      rfl
    · intro y hy
      rw [show (Outlet.goto (.edge first)).slots = [first] from rfl, List.mem_singleton] at hy
      exact hy ▸ hfirstMem
    · intro k e hk
      cases List.mem_singleton.1 hk
  refine ⟨d₁, d₃, ch, ?_⟩
  exact {
    code := hrun
    jump := by
      unfold Scope.jumpTo
      rw [run_bind (noteEdge_run first t), hc.blockOf_succ heb hfirstMem]
      rfl
    grown := hg₁.trans (hg₂.trans hg₃)
    size := by
      rw [hn]
      simp only [d₃, d₂, d₁, Draft.size_finish, Draft.size_note, Draft.size_emit]
      rfl
    phis := rfl
    good := hgood
    role := rfl
    root := fun _ hv => hv
    out := rfl }

namespace Entered

variable {first : Slot} {b : Builder} {d₁ d₂ : Draft} {ch : Chunk}

/-- The walk of all other blocks. -/
private theorem under (h : Entered c n first (Draft.ofBuilder b) d₁ d₂ ch) (hc : c.Sound K n)
    (hblank : Blank b) (hn : n = b.function.blocks.size)
    (hfirst : c.region.firstBlock? = some first) :
    ∃ d₃ book, (c.children Region.entrySlot).forM
        (fun a => c.visit c.region.slots.size a ch.table) d₂ = .ok ((), d₃) ∧
      Visited c n (c.Under Region.entrySlot) ch.table ch.stop.avail d₂ d₃ book := by
  obtain ⟨eb, heb, hmark, -⟩ := hc.ready.entry
  obtain ⟨zero, d₀, henter⟩ := enterRegion_run hfirst h.code h.jump
  have hkids : ∀ a ∈ c.children Region.entrySlot,
      Visits c n c.region.slots.size a ch.table ch.stop.avail := by
    intro a ha
    obtain ⟨halive, haidom⟩ := hc.mem_children.1 ha
    have hdom := hc.below_of_idom halive haidom
    have hane : a ≠ Region.entrySlot := fun h => hdom.2 h.symm
    have hcode : (if eb.isRegionEntry then c.enterRegion (.new zero)
        else c.lowerBlock Region.entrySlot eb (.new zero)) d₀ = .ok (ch.table, d₂) := by
      rw [Region.Block.isRegionEntry, hmark, if_pos (by simp)]
      exact henter
    -- The block dominates itself, so there is fuel for a path through all blocks.
    have hself : a ∈ c.region.flowGraph.domSets.get a :=
      (Flow.Graph.mem_domSets_iff hc.wellFormed (hc.reachable halive)).2 (.refl _ a)
    have hpos := List.length_pos_of_mem hself
    have hnodes : c.region.flowGraph.nodes.length ≤ c.region.slots.size := by
      simp only [Region.flowGraph, List.length_map, Region.blocks]
      refine Nat.le_trans (List.length_filterMap_le _ _) ?_
      simp
    exact visit_spec hc _ a hane halive (by omega) ch.table _ h.good.full
      (.child (.root zero) heb hcode ha)
  have hfresh : Fresh c d₂ (c.Under Region.entrySlot) := by
    intro x hx
    obtain ⟨hlive, hne⟩ := (under_entry_iff hc).1 hx
    have hlt : (c.place x).index < (Draft.ofBuilder b).size := by
      have := hc.lt_of_live hlive
      change _ < b.function.blocks.size
      omega
    have hnz := place_ne_zero hc hlive hne
    rw [h.grown.view _ hlt hnz, h.grown.edges_from hlt hnz]
    exact ⟨hblank.view hlt, rfl⟩
  have htyped : ch.table.Typed (d₂.site ch.stop.avail) :=
    h.good.typed.mono ⟨h.good.types, fun _ hv => hv⟩
  exact under_spec hc (fun _ => ch) hkids (h.grown.tidy hblank.tidy) (Nat.le_of_eq h.size.symm)
    htyped hfresh

variable {d₃ : Draft} {book₁ : Book}

/-- The entry and all other blocks together are the whole layout. -/
private theorem laid (h : Entered c n first d d₁ d₂ ch) (hc : c.Sound K n) (htidy : d.Tidy)
    (hplaces : ∀ k < n, ∃ x, c.Live x ∧ (c.place x).index = k)
    (hunder : Visited c n (c.Under Region.entrySlot) ch.table ch.stop.avail d₂ d₃ book₁) :
    ∃ book, Laid c n d₃ book ∧
      ∀ x, c.Live x → x ≠ Region.entrySlot → (book.body c x).Bare := by
  obtain ⟨eb, heb, -⟩ := hc.ready.entry
  have hnpos : 0 < n := Nat.zero_lt_of_lt (hc.lt_of_live ⟨eb, heb⟩)
  let book : Book := book₁.set 0 ch
  have hbook₀ : book 0 = ch := Book.set_self _ _ _
  have hbook : ∀ k, k ≠ 0 → book k = book₁ k := fun k hk => Book.set_of_ne _ _ hk
  have hentry : book.body c Region.entrySlot = ch := by
    rw [Book.body, place_entry hc, hbook₀]
  have hbody : ∀ x, c.Live x → x ≠ Region.entrySlot → book.body c x = book₁.body c x :=
    fun x hx hne => hbook _ (place_ne_zero hc hx hne)
  have hof : ∀ x, c.Live x → x ≠ Region.entrySlot → c.Under Region.entrySlot x :=
    fun x hx hne => (under_entry_iff hc).2 ⟨hx, hne⟩
  -- Every block of the function but the first is for a block under the entry, or on the side.
  have hcovered : ∀ k, k < d₃.size → k ≠ 0 → Covered c (c.Under Region.entrySlot) d₂ d₃ k := by
    intro k hk hne
    rcases Nat.lt_or_ge k n with hkn | hkn
    · obtain ⟨x, hx, rfl⟩ := hplaces k hkn
      refine .inl ⟨x, hof x hx ?_, rfl⟩
      rintro rfl
      exact hne (place_entry hc)
    · exact .inr ⟨h.size.symm ▸ hkn, hk⟩
  have hzero : ¬ c.Places (c.Under Region.entrySlot) 0 := by
    rintro ⟨x, hx, hplace⟩
    obtain ⟨hlive, hne⟩ := (under_entry_iff hc).1 hx
    exact place_ne_zero hc hlive hne hplace.symm
  have hsize₂ := h.size
  have hsize₃ := hunder.grown.size
  refine ⟨book, {
    tidy := hunder.grown.tidy (h.grown.tidy htidy)
    room := by omega
    places := hplaces
    good := fun k hk => ?good, points := fun k hk q e hq => ?points
    start := hentry.symm ▸ h.role
    root := hentry.symm ▸ h.root
    role := fun x hx hne => by
      rw [hbody x hx hne]
      exact hunder.role x (hof x hx hne)
    sides := fun k hle hk => ?sides, hangs := fun x y hx hxy => ?hangs
    merged := fun x phis => ?merged }, fun x hx hne => ?bare⟩
  case good =>
    by_cases hk0 : k = 0
    · rw [hk0, hbook₀]
      exact h.good.mono hunder.grown hzero
    · rw [hbook k hk0]
      exact hunder.good k (hcovered k hk hk0)
  case points =>
    by_cases hk0 : k = 0
    · rw [hk0, hbook₀, h.out] at hq
      cases List.mem_singleton.1 hq
    · rw [hbook k hk0] at hq
      obtain ⟨hle, hlt, hclaim⟩ := hunder.points k (hcovered k hk hk0) q e hq
      rw [hbook _ (by omega), hbook k hk0]
      exact ⟨by omega, hlt, hclaim⟩
  case sides =>
    obtain ⟨x, hx, hbeside⟩ := hunder.sides k (by omega) hk
    obtain ⟨hlive, hne⟩ := (under_entry_iff hc).1 hx
    refine ⟨x, hlive, hne, ?_⟩
    rw [hbody x hlive hne, hbook k (by omega)]
    exact hbeside
  case hangs =>
    have hdom := hc.below_of_idom hx hxy
    have hxne : x ≠ Region.entrySlot := by
      rintro rfl
      exact hdom.2 hdom.1.eq_entry
    rw [hbody x hx hxne]
    by_cases hyne : y = Region.entrySlot
    · subst hyne
      rw [hentry]
      exact hunder.roots x _ (hof x hx hxne) (fun hu => hc.ne_of_under hu rfl) hxy
    · have hy : c.Live y :=
        Region.mem_nodes.1 ((hdom.1.reachable (hc.reachable hx)).mem_nodes hc.wellFormed)
      rw [hbody y hy hyne]
      exact hunder.hangs x y (hof x hx hxne) (hof y hy hyne) hxy
  case merged =>
    by_cases hu : c.Under Region.entrySlot x
    · obtain ⟨hlive, hne⟩ := (under_entry_iff hc).1 hu
      rw [hunder.merged x hu, hbody x hlive hne]
      simp [hlive, hne, eq_comm]
    · have hnone : d₃.phis.lookup x = none := by
        rw [hunder.others x hu, h.phis]
        rfl
      rw [hnone]
      simp only [reduceCtorEq, false_iff]
      rintro ⟨hlive, hne, -⟩
      exact hu (hof x hlive hne)
  case bare =>
    rw [hbody x hx hne]
    exact hunder.bare x (hof x hx hne)

end Entered

/-- The walk from the synthetic entry lays out the region. -/
theorem visit_entry_spec (hc : c.Sound K n) {b : Builder} (hblank : Blank b)
    (hn : n = b.function.blocks.size) (hplaces : ∀ k < n, ∃ x, c.Live x ∧ (c.place x).index = k) :
    ∃ d' book, (do
        let zero ← word 0
        c.visit (c.region.slots.size + 1) Region.entrySlot (.new zero) : Walk Unit)
          (Draft.ofBuilder b) = .ok ((), d') ∧ Laid c n d' book ∧
      ∀ x, c.Live x → x ≠ Region.entrySlot → (book.body c x).Bare := by
  obtain ⟨eb, heb, -⟩ := hc.ready.entry
  obtain ⟨first, fb, hfirst, hsuccs, hfb, -⟩ := hc.ready.first
  obtain ⟨d₁, d₂, ch, h⟩ := exists_entered hc hblank hn hfirst ((hsuccs first).2 rfl)
  obtain ⟨d₃, book₁, hrun, hunder⟩ := h.under hc hblank hn hfirst
  have hlt : 0 < (Draft.ofBuilder b).size := by
    have := hc.lt_of_live ⟨eb, heb⟩
    change 0 < b.function.blocks.size
    omega
  obtain ⟨book, hlaid⟩ := h.laid hc hblank.tidy hplaces hunder
  refine ⟨d₃, book, ?_, hlaid⟩
  rw [visit_entry_eq hc hfirst hblank.current hlt]
  exact (run_bind h.code).trans ((run_bind h.jump).trans hrun)

end HotRegion.Lowering
