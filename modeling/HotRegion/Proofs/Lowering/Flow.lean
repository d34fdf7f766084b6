import HotRegion.Proofs.Lowering.Fill
import HotRegion.Proofs.Ssa.Strict

/-!
# The flow of the function

The control flow of the function follows that of the region: a path through the function is a path
through the region, with detours over blocks on the side. So dominance in the region is dominance in
the function, and a value at hand at the end of a block is defined in a block that dominates it.

## Key results

- `Laid.dominates`: dominance in the region is dominance in the function
- `Laid.strict`: definitions dominate their uses
- `Laid.valid`: the function keeps all rules of functions
-/

namespace HotRegion.Lowering

open Isa Analysis Ssa Build
open HotRegion.Flow (Graph)
open Region (Tracked Slot)

variable {c : Scope} {K : UInt32 × UInt32 → Prop} {n i j k : Nat} {d : Draft} {x y : Slot}
  {book : Book} {v : Value} {b : Ssa.Block}

/-! ## Blocks and edges -/

namespace Outlet

/-- The blocks that control may go to are those of the ways. -/
theorem mem_successors {o : Outlet} {id : BlockId} :
    id ∈ (o.term c).successors ↔ ∃ w ∈ o.ways, w.id c = id := by
  cases o with
  | goto w => simp [term, ways, Terminator.successors, eq_comm]
  | fork cond ifTrue ifFalse weights =>
    simp only [term, ways, Terminator.successors]
    split
    · next heq => simp [heq, eq_comm]
    · simp [eq_comm]
  | exit => simp [term, ways, Terminator.successors]

end Outlet

namespace Scope.Sound

/-- The successors of a block of the region are blocks of the region, and the synthetic entry is none
of them. -/
theorem live_succ (hc : c.Sound K n) {a : Region.Block} (ha : c.region.block? x = some a)
    (hy : y ∈ a.succs) :
    c.Live y ∧ y ≠ Region.entrySlot ∧ y ∈ c.region.flowGraph.succs x := by
  have hedge : y ∈ c.region.flowGraph.succs x := by
    rw [← Region.succs_of_block ha] at hy
    exact hy
  exact ⟨Region.mem_nodes.1 (hc.ready.rooted.target_mem x y hedge), hc.ready.rooted.ne_entry hedge,
    hedge⟩

end Scope.Sound

namespace Laid

/-- A block of the function has the code and the end that the book says. -/
theorem block_eq (h : Laid c n d book) (hb : d.builder.function.blocks[k]? = some b) :
    k < d.size ∧ b.insts.toList = (book k).merges.map Merge.inst ++ (book k).code ∧
      b.terminator = some ((book k).out.term c) := by
  have hk : k < d.size := (Array.getElem?_eq_some_iff.1 hb).1
  have hview := (h.good k hk).view_eq
  simp only [Draft.view, hb, Option.map_some, Option.some.injEq, Prod.mk.injEq] at hview
  exact ⟨hk, hview.1, hview.2⟩

theorem exists_block (h : Laid c n d book) (hk : k < d.size) :
    ∃ b, d.builder.function.blocks[k]? = some b ∧
      b.insts.toList = (book k).merges.map Merge.inst ++ (book k).code ∧
      b.terminator = some ((book k).out.term c) := by
  obtain ⟨b, hb⟩ : ∃ b, d.builder.function.blocks[k]? = some b := ⟨_, Array.getElem?_eq_getElem hk⟩
  exact ⟨b, hb, (h.block_eq hb).2⟩

theorem definedIn_iff : d.builder.function.DefinedIn i v ↔ v ∈ d.dsts i := by
  unfold Function.DefinedIn Draft.dsts Draft.view
  cases d.builder.function.blocks[i]? with
  | none => simp
  | some b => simp

/-- The edges of the function are the ways of its blocks. -/
theorem mem_succs (h : Laid c n d book) : j ∈ d.builder.function.flowGraph.succs k ↔
    k < d.size ∧ ∃ w ∈ (book k).out.ways, (w.id c).index = j := by
  simp only [Function.flowGraph]
  cases hb : d.builder.function.blocks[k]? with
  | none =>
    have hle : d.size ≤ k := Array.getElem?_eq_none_iff.1 hb
    simp only [List.not_mem_nil, false_iff, not_and]
    exact fun hlt => absurd hlt (Nat.not_lt_of_le hle)
  | some b =>
    obtain ⟨hk, -, hterm⟩ := h.block_eq hb
    simp only [Block.successors, hterm, List.mem_map, Outlet.mem_successors, hk, true_and]
    constructor
    · rintro ⟨_, ⟨w, hw, rfl⟩, rfl⟩
      exact ⟨w, hw, rfl⟩
    · rintro ⟨w, hw, rfl⟩
      exact ⟨_, ⟨w, hw, rfl⟩, rfl⟩

/-- An edge into the region leads to a block of the region. -/
theorem edge_live (hc : c.Sound K n) (h : Laid c n d book) (hk : k < d.size)
    (hy : .edge y ∈ (book k).out.ways) :
    c.Live y ∧ y ≠ Region.entrySlot ∧ y ∈ c.region.flowGraph.succs (book k).slot := by
  have hgood := h.good k hk
  exact hc.live_succ hgood.block (hgood.slots y (Outlet.mem_slots.2 hy))

/-! ## Paths -/

/-- A path through the function goes along a path through the region. -/
theorem path (hc : c.Sound K n) (h : Laid c n d book) {l : List Flow.Node}
    (hp : Graph.Path d.builder.function.flowGraph Function.entry.index k l) : k < d.size ∧
      ∃ l', Graph.Path c.region.flowGraph Region.entrySlot (book k).slot l' ∧
        ∀ a ∈ l', (c.place a).index ∈ l := by
  obtain ⟨eb, heb, -⟩ := hc.ready.entry
  have hentry : c.Live Region.entrySlot := ⟨eb, heb⟩
  -- A step along an edge is one between blocks of the region; a side exit belongs to its block.
  induction hp with
  | refl =>
    have hslot := h.slot_eq hc hentry
    rw [Book.body, hc.entry] at hslot
    have hlt := hc.lt_of_live hentry
    rw [hc.entry] at hlt
    refine ⟨Nat.lt_of_lt_of_le hlt h.room, [Region.entrySlot], ?_, ?_⟩
    · rw [hslot]
      exact .refl
    · simp [hc.entry]
  | @step k j l hp hedge ih =>
    obtain ⟨hk, l', hpath, hl'⟩ := ih
    obtain ⟨-, w, hw, rfl⟩ := h.mem_succs.1 hedge
    cases w with
    | edge y =>
      obtain ⟨hy, -, hsucc⟩ := h.edge_live hc hk hw
      have hslot := h.slot_eq hc hy
      rw [Book.body] at hslot
      refine ⟨Nat.lt_of_lt_of_le (hc.lt_of_live hy) h.room, y :: l', ?_, fun a ha => ?_⟩
      · change Graph.Path _ _ (book (c.place y).index).slot _
        rw [hslot]
        exact hpath.step hsucc
      · rcases List.mem_cons.1 ha with rfl | ha
        · exact List.mem_cons_self
        · exact List.mem_cons_of_mem _ (hl' a ha)
    | side q e =>
      obtain ⟨-, hlt, -, hslot⟩ := h.points k hk q e hw
      refine ⟨hlt, l', ?_, fun a ha => List.mem_cons_of_mem _ (hl' a ha)⟩
      change Graph.Path _ _ (book q.index).slot _
      rw [hslot]
      exact hpath

/-- What dominates a block of the region dominates all blocks of the function for it. -/
theorem dominates (hc : c.Sound K n) (h : Laid c n d book)
    (hdom : c.region.flowGraph.Dominates x (book k).slot) :
    d.builder.function.flowGraph.Dominates (c.place x).index k := by
  intro l hl
  obtain ⟨-, l', hpath, hl'⟩ := h.path hc hl
  exact hl' x (hdom l' hpath)

/-! ## Values at hand -/

/-- What is at hand at the end of a block was at hand before it or is defined in it. -/
theorem avail_cases (h : Laid c n d book) (hk : k < d.size) (hv : (book k).stop.avail v) :
    (book k).below v ∨ v ∈ d.dsts k := by
  have hgood := h.good k hk
  rw [Draft.dsts_of_view hgood.view_eq, dsts_append]
  rcases hgood.ordered.avail_cases hv with hv | hv
  · refine (hgood.avail v hv).imp_right fun ⟨mg, hmg, hdst⟩ => List.mem_append_left _ ?_
    exact mem_dsts.2 ⟨mg.inst, List.mem_map.2 ⟨mg, hmg, rfl⟩, by rw [← hdst]; rfl⟩
  · exact .inr (List.mem_append_right _ (mem_dsts.2 hv))

/-- What is at hand before a block of the region is defined in a block above it, and what is at hand
at its end, there or in a block above it. -/
theorem exists_above (hc : c.Sound K n) (h : Laid c n d book) (x : Slot) (hx : c.Live x) :
    ((book.body c x).below v → ∃ a, c.Live a ∧ c.region.flowGraph.StrictlyDominates a x ∧
      v ∈ d.dsts (c.place a).index) ∧
    ((book.body c x).stop.avail v → ∃ a, c.Live a ∧ c.region.flowGraph.Dominates a x ∧
      v ∈ d.dsts (c.place a).index) := by
  -- The induction goes up the dominator tree.
  generalize hN : (c.region.flowGraph.domSets.get x).length = N
  induction N using Nat.strongRecOn generalizing x with
  | ind N ih =>
    subst hN
    have hbelow : (book.body c x).below v → ∃ a, c.Live a ∧
        c.region.flowGraph.StrictlyDominates a x ∧ v ∈ d.dsts (c.place a).index := by
      intro hv
      by_cases hne : x = Region.entrySlot
      · subst hne
        exact absurd hv (h.root v)
      · obtain ⟨y, hxy, -⟩ := Graph.exists_idom hc.wellFormed (hc.reachable hx) hne
        have hdom := hc.below_of_idom hx hxy
        have hy : c.Live y :=
          Region.mem_nodes.1 ((hdom.1.reachable (hc.reachable hx)).mem_nodes hc.wellFormed)
        obtain ⟨a, ha, hay, hdef⟩ := (ih _ (Graph.length_domSets_lt hc.wellFormed (hc.reachable hx)
          hdom) y hy rfl).2 ((h.hangs x y hx hxy).below v hv)
        refine ⟨a, ha, ⟨hay.trans hdom.1, ?_⟩, hdef⟩
        rintro rfl
        exact hdom.2 (hdom.1.antisymm hay (hc.reachable hx))
    refine ⟨hbelow, fun hv => ?_⟩
    rcases h.avail_cases (Nat.lt_of_lt_of_le (hc.lt_of_live hx) h.room) hv with hv | hv
    · obtain ⟨a, ha, hdom, hdef⟩ := hbelow hv
      exact ⟨a, ha, hdom.1, hdef⟩
    · exact ⟨x, hx, .refl _ x, hv⟩

/-- What is at hand before a block of the function is defined in another block that dominates it. -/
theorem below_spec (hc : c.Sound K n) (h : Laid c n d book) (hk : k < d.size)
    (hv : (book k).below v) : ∃ a, d.builder.function.flowGraph.StrictlyDominates a k ∧
      d.builder.function.DefinedIn a v := by
  rcases Nat.lt_or_ge k n with hlt | hge
  · obtain ⟨x, hx, rfl⟩ := h.places k hlt
    obtain ⟨a, ha, hdom, hdef⟩ := (h.exists_above hc x hx).1 hv
    have hslot := h.slot_eq hc hx
    rw [Book.body] at hslot
    refine ⟨(c.place a).index, ⟨h.dominates hc (hslot.symm ▸ hdom.1), fun heq => ?_⟩,
      definedIn_iff.2 hdef⟩
    exact hdom.2 (hc.place_inj ha hx heq)
  · obtain ⟨x, hx, -, hbeside⟩ := h.sides k hge hk
    obtain ⟨a, ha, hdom, hdef⟩ := (h.exists_above hc x hx).2 (hbeside.below v hv)
    have hslot := hbeside.slot.trans (h.slot_eq hc hx)
    refine ⟨(c.place a).index, ⟨h.dominates hc (hslot.symm ▸ hdom), fun heq => ?_⟩,
      definedIn_iff.2 hdef⟩
    exact absurd (heq ▸ hc.lt_of_live ha) (Nat.not_lt_of_le hge)

/-- What is at hand at the end of a block is defined in a block that dominates it. -/
theorem avail_spec (hc : c.Sound K n) (h : Laid c n d book) (hk : k < d.size)
    (hv : (book k).stop.avail v) : ∃ a, d.builder.function.flowGraph.Dominates a k ∧
      d.builder.function.DefinedIn a v := by
  rcases h.avail_cases hk hv with hv | hv
  · obtain ⟨a, ha, hdef⟩ := h.below_spec hc hk hv
    exact ⟨a, ha.1, hdef⟩
  · exact ⟨k, .refl _ k, definedIn_iff.2 hv⟩

/-- The operands of the end of a block are at hand there. -/
theorem operand_avail (h : Laid c n d book) (hk : k < d.size)
    (hv : v ∈ ((book k).out.term c).operands) : (book k).stop.avail v := by
  have hops := (h.good k hk).operands
  cases hout : (book k).out with
  | goto w =>
    rw [hout] at hv
    exact absurd hv List.not_mem_nil
  | fork cond ifTrue ifFalse weights =>
    rw [hout] at hv hops
    rw [List.mem_singleton.1 hv]
    exact hops.avail
  | exit pc reason =>
    rw [hout] at hv hops
    rw [List.mem_singleton.1 hv]
    exact hops.avail

/-- A phi belongs to a merge of a block of the region. -/
theorem mem_merges (h : Laid c n d book) (hk : k < d.size) {dst : Value}
    {incoming : List (BlockId × Value)}
    (hphi : .phi dst incoming ∈ (book k).merges.map Merge.inst ++ (book k).code) :
    ∃ x mg, c.Live x ∧ x ≠ Region.entrySlot ∧ k = (c.place x).index ∧
      mg ∈ (book.body c x).merges ∧ mg.dst = dst ∧ mg.incoming = incoming := by
  have hgood := h.good k hk
  rcases List.mem_append.1 hphi with hphi | hphi
  · obtain ⟨mg, hmg, heq⟩ := List.mem_map.1 hphi
    cases heq
    have hplace := hgood.place
    have hrole := hplace.role_eq_body (List.ne_nil_of_mem hmg)
    unfold Chunk.InPlace at hplace
    simp only [hrole] at hplace
    refine ⟨(book k).slot, mg, ⟨_, hgood.block⟩, hplace.1, hplace.2.1, ?_, rfl, rfl⟩
    rw [Book.body, ← hplace.2.1]
    exact hmg
  · cases hgood.ordered.not_phi _ hphi

/-- The sources of the edges into a block are the blocks that lead to it. -/
theorem mem_sourcesOf (h : Laid c n d book) {p : BlockId} :
    p ∈ d.sourcesOf x ↔ p.index < d.size ∧ .edge x ∈ (book p.index).out.ways := by
  simp only [Draft.sourcesOf, List.mem_map, List.mem_filter, beq_iff_eq]
  constructor
  · rintro ⟨e, ⟨he, rfl⟩, rfl⟩
    obtain ⟨hlt, -, hmem⟩ := h.edge_spec he
    exact ⟨hlt, Outlet.mem_slots.1 hmem⟩
  · rintro ⟨hlt, hway⟩
    have hmem : (⟨x, p, (book p.index).table⟩ : Edge) ∈
        d.edges.toList.filter (·.source.index == p.index) := by
      rw [(h.good _ hlt).edges]
      exact List.mem_map.2 ⟨x, Outlet.mem_slots.2 hway, rfl⟩
    exact ⟨_, ⟨(List.mem_filter.1 hmem).1, rfl⟩, rfl⟩

end Laid

/-! ## Strictness -/

/-- An input of a phi is at hand, with the type of the phi, at the end of the block it comes from. -/
theorem Laid.input_spec (h : Laid c n d book) (hs : Supplied c book fun y _ => d.sourcesOf y)
    {mg : Merge} (hx : c.Live x) (hne : x ≠ Region.entrySlot)
    (hmg : mg ∈ (book.body c x).merges) {p : BlockId} (hin : (p, v) ∈ mg.incoming) :
    p.index < d.size ∧ (book p.index).stop.Has v (mg.reg.ty c.fp) := by
  obtain ⟨m, hm⟩ := List.getElem?_of_mem hmg
  obtain ⟨hsrc, hvals⟩ := hs x hx hne m mg hm
  have hp : p ∈ d.sourcesOf x := by
    have hmem := List.mem_map_of_mem (f := Prod.fst) hin
    rw [hsrc] at hmem
    exact hmem
  exact ⟨(h.mem_sourcesOf.1 hp).1, (hvals _ hin).has⟩

/-- Definitions dominate their uses. -/
theorem Laid.strict (hc : c.Sound K n) (h : Laid c n d book)
    (hs : Supplied c book fun y _ => d.sourcesOf y) : d.builder.function.Strict where
  operand k b hb _ pre inst post hinsts hphi v hv := by
    obtain ⟨hk, heq, -⟩ := h.block_eq hb
    have hgood := h.good k hk
    -- The instruction is in the code after the merges.
    obtain ⟨front, rfl, hcode⟩ : ∃ front, pre = (book k).merges.map Merge.inst ++ front ∧
        (book k).code = front ++ inst :: post := by
      rw [hinsts] at heq
      rcases List.append_eq_append_iff.1 heq with ⟨m, hm, hm'⟩ | ⟨m, hm, hm'⟩
      · cases m with
        | nil => exact ⟨[], by simpa using hm.symm, by simpa using hm'.symm⟩
        | cons first m =>
          obtain ⟨rfl, -⟩ := List.cons.inj hm'
          have hmem : inst ∈ (book k).merges.map Merge.inst := by
            rw [hm]
            exact List.mem_append_right _ List.mem_cons_self
          obtain ⟨mg, -, rfl⟩ := List.mem_map.1 hmem
          cases hphi
      · exact ⟨m, hm, hm'⟩
    rw [dsts_append]
    have hreads := hgood.ordered
    rw [hcode] at hreads
    rcases hreads.reads hv with hv | hv
    · rcases hgood.avail v hv with hv | ⟨mg, hmg, rfl⟩
      · exact .inr (h.below_spec hc hk hv)
      · refine .inl (List.mem_append_left _ (mem_dsts.2 ⟨mg.inst, ?_, rfl⟩))
        exact List.mem_map.2 ⟨mg, hmg, rfl⟩
    · exact .inl (List.mem_append_right _ hv)
  terminator k b t hb _ ht v hv := by
    obtain ⟨hk, -, hterm⟩ := h.block_eq hb
    obtain rfl := Option.some.inj (ht.symm.trans hterm)
    exact h.avail_spec hc hk (h.operand_avail hk hv)
  input k b hb dst incoming hphi p v hin _ := by
    obtain ⟨hk, heq, -⟩ := h.block_eq hb
    obtain ⟨x, mg, hx, hne, -, hmg, -, rfl⟩ := h.mem_merges hk (heq ▸ hphi)
    obtain ⟨hlt, hhas⟩ := h.input_spec hs hx hne hmg hin
    exact h.avail_spec hc hlt hhas.avail

/-! ## Validity -/

namespace Laid

theorem fits (h : Laid c n d book) (hk : k < d.size) : (book k).stop.Fits d.builder.function :=
  fun i ty hi => (h.good k hk).types i ty hi

/-- No value is defined twice. -/
theorem nodup_dsts (h : Laid c n d book) : (dsts d.builder.function.allInsts).Nodup := by
  have hdsts : ∀ (i : Nat) (hi : i < d.builder.function.blocks.toList.length),
      dsts d.builder.function.blocks.toList[i].insts.toList = d.dsts i := by
    intro i hi
    simp [Draft.dsts, Draft.view, show i < d.builder.function.blocks.size by simpa using hi]
  have hflat : dsts d.builder.function.allInsts =
      d.builder.function.blocks.toList.flatMap fun b => dsts b.insts.toList := by
    simp [dsts, Function.allInsts, List.filterMap_flatMap]
  rw [hflat, List.Nodup, List.pairwise_flatMap]
  refine ⟨fun b hb => ?_, List.pairwise_iff_getElem.2 fun i j hi hj hij v hv w hw heq => ?_⟩
  · obtain ⟨i, hi, rfl⟩ := List.getElem_of_mem hb
    rw [hdsts i hi]
    exact h.tidy.nodup i
  · subst heq
    rw [hdsts] at hv hw
    exact absurd (h.tidy.apart i j v hv hw) (Nat.ne_of_lt hij)

/-- Each block is the source of at most one edge into a block. -/
theorem nodup_sourcesOf (h : Laid c n d book) (x : Slot) : (d.sourcesOf x).Nodup := by
  refine List.nodup_iff_count.2 fun p => ?_
  by_cases hp : p.index < d.size
  · have hedges := (h.good _ hp).edges
    have hcount : (d.sourcesOf x).count p = (book p.index).out.slots.count x := by
      have hswap : (d.sourcesOf x).count p =
          (d.edges.toList.filter (·.source.index == p.index)).countP (·.target == x) := by
        rw [Draft.sourcesOf, List.count, List.countP_map, List.countP_filter, List.countP_filter]
        refine List.countP_congr fun e _ => ?_
        have hiff : e.source = p ↔ e.source.index = p.index :=
          ⟨congrArg BlockId.index, fun heq => congrArg BlockId.mk heq⟩
        simp [hiff, and_comm]
      rw [hswap, hedges, List.countP_map]
      rfl
    rw [hcount]
    exact List.nodup_iff_count.1 (h.good _ hp).nodup x
  · have hnot : p ∉ d.sourcesOf x := fun hmem => hp (h.mem_sourcesOf.1 hmem).1
    rw [List.count_eq_zero.2 hnot]
    exact Nat.zero_le 1

/-- The predecessors of the block of a slot are the sources of the edges into it. -/
theorem perm_predecessors (hc : c.Sound K n) (h : Laid c n d book) (hx : c.Live x) :
    (d.sourcesOf x).Perm (d.builder.function.predecessors (c.place x)) := by
  -- Neither list has duplicates, so it is enough that both have the same members.
  have hnodup : (d.builder.function.predecessors (c.place x)).Nodup := by
    refine List.Nodup.sublist List.filter_sublist (List.pairwise_map.2 ?_)
    exact List.nodup_range.imp fun hne heq => hne (congrArg BlockId.index heq)
  refine (List.perm_ext_iff_of_nodup (h.nodup_sourcesOf x) hnodup).2 fun p => ?_
  rw [h.mem_sourcesOf, Function.mem_predecessors]
  constructor
  · rintro ⟨hp, hway⟩
    obtain ⟨b, hb, -, hterm⟩ := h.exists_block hp
    refine ⟨b, hb, ?_⟩
    rw [Block.successors, hterm]
    exact Outlet.mem_successors.2 ⟨_, hway, rfl⟩
  · rintro ⟨b, hb, hmem⟩
    obtain ⟨hp, -, hterm⟩ := h.block_eq hb
    rw [Block.successors, hterm] at hmem
    obtain ⟨w, hw, hid⟩ := Outlet.mem_successors.1 hmem
    refine ⟨hp, ?_⟩
    cases w with
    | edge y =>
      obtain ⟨hy, -⟩ := h.edge_live hc hp hw
      obtain rfl := hc.place_inj hy hx (congrArg BlockId.index hid)
      exact hw
    | side q e =>
      -- A side exit has a block of its own, behind those of the region.
      have hle := (h.points _ hp q e hw).1
      have hlt := hc.lt_of_live hx
      rw [← hid] at hlt
      exact absurd hlt (Nat.not_lt_of_le hle)

/-- No edge leads to the entry. -/
theorem predecessors_entry (hc : c.Sound K n) (h : Laid c n d book) :
    d.builder.function.predecessors Function.entry = [] := by
  obtain ⟨eb, heb, -⟩ := hc.ready.entry
  have hentry : c.Live Region.entrySlot := ⟨eb, heb⟩
  have hnil : d.sourcesOf Region.entrySlot = [] := by
    refine List.eq_nil_iff_forall_not_mem.2 fun p hp => ?_
    obtain ⟨hlt, hway⟩ := h.mem_sourcesOf.1 hp
    exact (h.edge_live hc hlt hway).2.1 rfl
  have hperm := h.perm_predecessors hc hentry
  rw [hnil, hc.entry] at hperm
  exact hperm.nil_eq.symm

/-- What is at hand at the end of a block is defined. -/
theorem defines_of_avail (hc : c.Sound K n) (h : Laid c n d book) (hk : k < d.size)
    (hv : (book k).stop.avail v) : d.builder.function.Defines v := by
  obtain ⟨a, -, b, hb, hmem⟩ := h.avail_spec hc hk hv
  exact Builder.defines_iff.2 ⟨_, b, hb, hmem⟩

/-- An input of a phi is at hand at the end of the block that it comes from, and any other operand
is at hand at the start of its block or defined before in it. -/
theorem defines_operand (hc : c.Sound K n) (h : Laid c n d book)
    (hs : Supplied c book fun y _ => d.sourcesOf y)
    (hb : d.builder.function.blocks[k]? = some b) {inst : Inst} (hi : inst ∈ b.insts.toList)
    (hv : v ∈ inst.operands) : d.builder.function.Defines v := by
  obtain ⟨hk, hinsts, -⟩ := h.block_eq hb
  rw [hinsts] at hi
  rcases List.mem_append.1 hi with hm | hcode
  · obtain ⟨mg₀, -, rfl⟩ := List.mem_map.1 hm
    obtain ⟨x, mg, hx, hne, -, hmg, -, hin⟩ := h.mem_merges hk hi
    rw [Merge.inst, Inst.operands, ← hin] at hv
    obtain ⟨⟨p, w⟩, hpw, rfl⟩ := List.mem_map.1 hv
    obtain ⟨hlt, hhas⟩ := h.input_spec hs hx hne hmg hpw
    exact h.defines_of_avail hc hlt hhas.avail
  · have hordered := (h.good k hk).ordered
    obtain ⟨front, back, hsplit⟩ := List.append_of_mem hcode
    have hhere := hordered
    rw [hsplit] at hhere
    rcases hhere.reads hv with hv | hv
    · exact h.defines_of_avail hc hk (hordered.le.avail v hv)
    · refine Builder.defines_iff.2 ⟨k, b, hb, ?_⟩
      rw [hinsts, hsplit, dsts_append, dsts_append]
      exact List.mem_append_right _ (List.mem_append_left _ hv)

/-- The inputs of a merge have the type of its register. -/
theorem checkTypes_eq_ok (h : Laid c n d book) (hs : Supplied c book fun y _ => d.sourcesOf y)
    (hb : d.builder.function.blocks[k]? = some b) {inst : Inst} (hi : inst ∈ b.insts.toList) :
    d.builder.function.checkTypes inst = .ok () := by
  obtain ⟨hk, hinsts, -⟩ := h.block_eq hb
  rw [hinsts] at hi
  rcases List.mem_append.1 hi with hm | hcode
  · obtain ⟨mg₀, -, rfl⟩ := List.mem_map.1 hm
    obtain ⟨x, mg, hx, hne, hplace, hmg, hdst, hin⟩ := h.mem_merges hk hi
    rw [Merge.inst, ← hdst, ← hin]
    refine forM_eq_ok.2 ?_
    rintro ⟨p, w⟩ hpw
    obtain ⟨hlt, hhas⟩ := h.input_spec hs hx hne hmg hpw
    obtain ⟨m, hm⟩ := List.getElem?_of_mem hmg
    have hty := ((h.good k hk).merged m mg (by rw [hplace]; exact hm)).1
    have hdstTy : d.builder.function.ty mg.dst = mg.reg.ty c.fp := by
      simp only [Function.ty, Array.getD_eq_getD_getElem?]
      rw [show d.builder.function.types[mg.dst.index]? = _ from hty]
      rfl
    simp [Function.checkSame, hdstTy, (h.fits hlt).ty_eq hhas]
  · exact (h.good k hk).ordered.checkTypes (h.fits hk) inst hcode

/-- A merge has one input for each block that leads to its block. -/
theorem covers_predecessors (hc : c.Sound K n) (h : Laid c n d book)
    (hs : Supplied c book fun y _ => d.sourcesOf y)
    (hb : d.builder.function.blocks[k]? = some b) :
    Function.Covers (d.builder.function.predecessors ⟨k⟩) b.insts.toList := by
  intro dst incoming hphi
  obtain ⟨hk, hinsts, -⟩ := h.block_eq hb
  obtain ⟨x, mg, hx, hne, hplace, hmg, -, rfl⟩ := h.mem_merges hk (hinsts ▸ hphi)
  obtain ⟨m, hm⟩ := List.getElem?_of_mem hmg
  have hsrc : mg.incoming.map Prod.fst = d.sourcesOf x := (hs x hx hne m mg hm).1
  have hid : (⟨k⟩ : BlockId) = c.place x := congrArg BlockId.mk hplace
  rw [hid]
  have hperm := h.perm_predecessors hc hx
  simp only [Function.coversPredecessors, Bool.and_eq_true, List.all_eq_true, beq_iff_eq]
  refine ⟨?_, fun p hp => ?_⟩
  · rw [← hperm.length_eq, ← hsrc, List.length_map]
  · have hcount : mg.incoming.countP (·.1 == p) = (mg.incoming.map Prod.fst).count p := by
      rw [List.count, List.countP_map]
      rfl
    rw [hcount, hsrc, (h.nodup_sourcesOf x).count, if_pos (hperm.mem_iff.2 hp)]

/-- A block ends with control going to blocks of the function. -/
theorem ends_valid (hc : c.Sound K n) (h : Laid c n d book) (hk : k < d.size) :
    (∀ q ∈ ((book k).out.term c).successors, q.index < d.size) ∧
      (∀ v ∈ ((book k).out.term c).operands, d.builder.function.Defines v) ∧
      d.builder.function.checkEnd ((book k).out.term c) = .ok () := by
  refine ⟨fun q hq => ?_, fun v hv => h.defines_of_avail hc hk (h.operand_avail hk hv), ?_⟩
  · obtain ⟨w, hw, rfl⟩ := Outlet.mem_successors.1 hq
    cases w with
    | edge y => exact Nat.lt_of_lt_of_le (hc.lt_of_live (h.edge_live hc hk hw).1) h.room
    | side q e => exact (h.points k hk q e hw).2.1
  · have hops := (h.good k hk).operands
    cases hout : (book k).out with
    | goto w => rfl
    | fork cond ifTrue ifFalse weights =>
      rw [hout] at hops
      simp [Function.checkEnd, Outlet.term, (h.fits hk).ty_eq hops]
    | exit pc reason =>
      rw [hout] at hops
      simp [Function.checkEnd, Outlet.term, (h.fits hk).ty_eq hops]

/-- The function keeps all rules of functions. -/
theorem valid (hc : c.Sound K n) (h : Laid c n d book)
    (hs : Supplied c book fun y _ => d.sourcesOf y) : d.builder.function.Valid where
  once := h.nodup_dsts
  entry := h.predecessors_entry hc
  block k b hb := by
    obtain ⟨hk, hinsts, hterm⟩ := h.block_eq hb
    have hphis : ∀ inst ∈ (book k).merges.map Merge.inst, inst.isPhi = true := by
      intro inst hi
      obtain ⟨mg, -, rfl⟩ := List.mem_map.1 hi
      rfl
    refine ⟨fun inst hi v => h.defines_operand hc hs hb hi, fun inst => h.checkTypes_eq_ok hs hb,
      h.covers_predecessors hc hs hb, fun inst hi => ?_, _, hterm, h.ends_valid hc hk⟩
    -- The merges come first, and nothing after them is a phi.
    rw [Block.body, hinsts, List.dropWhile_append_of_pos hphis] at hi
    exact (h.good k hk).ordered.not_phi inst ((List.dropWhile_sublist _).subset hi)

/-- Validation accepts the function. -/
theorem validate_eq_ok (hc : c.Sound K n) (h : Laid c n d book)
    (hs : Supplied c book fun y _ => d.sourcesOf y) : d.builder.function.validate = .ok () := by
  refine (Function.validate_eq_ok_iff fun v hv => ?_).2 (h.valid hc hs)
  obtain ⟨i, b, hb, hmem⟩ := Builder.defines_iff.1 hv
  exact h.tidy.bound i v (definedIn_iff.1 ⟨b, hb, hmem⟩)

end Laid

end HotRegion.Lowering
