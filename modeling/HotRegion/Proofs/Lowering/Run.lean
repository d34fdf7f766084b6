import HotRegion.Proofs.Lowering.Flow
import HotRegion.Proofs.Region.Effect
import HotRegion.Proofs.Ssa.Blocks

/-!
# Runs of the function

While the function runs, its values say where a guest is that passes through the region. `Ended` is
the invariant: at the end of a block, the tables of all blocks that dominate it still hold for the
units that were neither defined nor merged since. That is just what a block needs that starts from the
table of its immediate dominator.

## Key results

- `Laid.enter_body`: control goes over an edge, and the guest passes through the next block
- `Laid.follow`: from the end of a block control comes to an edge or leaves the region
-/

namespace HotRegion.Lowering

open Isa Analysis Ssa Build
open HotRegion.Flow (Graph Quiet)
open Machine (State Memory)
open Region (Tracked Slot Departure)

variable {c : Scope} {K : UInt32 × UInt32 → Prop} {n k : Nat} {d : Draft} {x y : Slot} {book : Book}
  {v : Value} {fr fr' : Frame Watched} {g g' origin : State} {out : Departure}

/-! ## Values that stay -/

/-- What an ending says depends on available values alone. -/
theorem Ending.holds_congr {s : Site} {e : Ending} {V V' : Value → UInt64} (ht : e.Typed s)
    (hV : ∀ v, s.avail v → V' v = V v) (h : e.Holds V g out) : e.Holds V' g out := by
  cases e with
  | goto => exact h
  | fork => exact ⟨(hV _ ht.avail).trans h.1, h.2⟩
  | scan => exact ⟨(hV _ ht.avail).trans h.1, h.2⟩

namespace Laid

/-- What is at hand at the end of a block of the region is not defined by a block that does not
dominate it. -/
theorem not_mem_dsts (hc : c.Sound K n) (h : Laid c n d book) {a : Slot} (ha : c.Live a)
    (hv : (book.body c a).stop.avail v)
    (hk : ∀ z, c.Live z → (c.place z).index = k → ¬ c.region.flowGraph.Dominates z a) :
    v ∉ d.dsts k := by
  intro hmem
  obtain ⟨z, hz, hdom, hdef⟩ := (h.exists_above hc a ha).2 hv
  exact hk z hz (h.tidy.apart _ _ v hdef hmem) hdom

/-- Running a block of the function. -/
theorem runBlock (h : Laid c n d book) (hk : k < d.size) (pred : Option BlockId)
    (hsize : fr.values.size = d.types.size)
    (hinputs : ∀ mg ∈ (book k).merges, ∃ p v, pred = some p ∧ mg.inst.input? p = some v) :
    ∃ fr', Ssa.runBlock d.builder.function fr pred ⟨k⟩ =
        .ok (fr', endBlock fr' ((book k).out.term c)) ∧
      fr'.values.size = d.types.size ∧ (∀ v, v ∉ d.dsts k → fr'.get v = fr.get v) ∧
      (∀ mg ∈ (book k).merges, ∀ p v, pred = some p → mg.inst.input? p = some v →
        fr'.get mg.dst = fr.get v) ∧
      Sat d.builder.function fr'.get (book k).code fr.machine fr'.machine := by
  obtain ⟨b, hb, hinsts, hterm⟩ := h.exists_block hk
  have hgood := h.good k hk
  have hdsts := Draft.dsts_of_view hgood.view_eq
  have hphis : ∀ inst ∈ (book k).merges.map Merge.inst, ∃ mg ∈ (book k).merges, mg.inst = inst :=
    fun inst hi => List.mem_map.1 hi
  have hblock : d.builder.function.block? ⟨k⟩ = some b := hb
  obtain ⟨fr', hrun, hsize', hkeep, hget, hsat⟩ := runBlock_spec fr pred hblock hinsts hterm
    (fun inst hi => by
      obtain ⟨mg, -, rfl⟩ := hphis inst hi
      rfl)
    hgood.ordered (hdsts ▸ h.tidy.nodup k)
    (by
      rw [hsize]
      have hle : (book k).stop.Le ⟨d.types, (book k).stop.avail⟩ := ⟨hgood.types, fun _ hv => hv⟩
      exact hle.size_le)
    (fun v hv => by
      rw [hsize]
      refine h.tidy.bound k v ?_
      rw [hdsts, dsts_append]
      exact List.mem_append_left _ hv)
    (fun inst hi => by
      obtain ⟨mg, hmg, rfl⟩ := hphis inst hi
      exact hinputs mg hmg)
  refine ⟨fr', hrun, hsize'.trans hsize, fun v hv => hkeep v (hdsts ▸ hv), ?_, hsat⟩
  exact fun mg hmg p v hp hv => hget mg.inst (List.mem_map_of_mem hmg) mg.dst p v rfl hp hv

end Laid

/-! ## The invariant -/

/-- A block of the region defines or merges the register in which a unit is kept. -/
def Scope.Touches (c : Scope) (u : Tracked) (x : Slot) : Prop :=
  x ∈ c.usage.defBlocks (u.home c.fp) ∨ u.home c.fp ∈ c.region.phisAt x

/-- What the table of block `a` of the region says of a unit is so at the end of block `x`: it is the
table at that end, or the unit was not touched on any way from there. -/
def Scope.Lasts (c : Scope) (a x : Slot) (u : Tracked) : Prop :=
  a = x ∨ Quiet c.region.flowGraph (c.Touches u) a x ∧ ¬ c.Touches u x

/-- Control is at the end of block `k`, and the guest at `g`. The machine was at `origin` when the
function started, and only its memory changes before an exit. -/
structure Ended (c : Scope) (d : Draft) (book : Book) (origin : State) (k : Nat) (fr : Frame Watched)
    (g : State) : Prop where
  lt : k < d.size
  size : fr.values.size = d.types.size
  sat : ∃ m, Sat d.builder.function fr.get (book k).code m fr.machine
  agrees : ∀ a u, c.region.flowGraph.Dominates a (book k).slot → c.Lasts a (book k).slot u →
    (book.body c a).table.AgreesAt fr.get g u
  machine : fr.machine.state = { origin with mem := g.mem }
  frame : ∀ u : Tracked, u.home c.fp ∉ c.usage.written → u ≠ .gpr .zero → g.unit u = origin.unit u

/-- Control has left the region out of a block, and the guest is at `g`. So is the machine, but that it
has for `$0` what it had at `origin`. -/
structure Left (c : Scope) (origin : State) (x : Slot) (b : Region.Block) (g : State)
    (out : Departure) (e : Exit) (m : Watched) : Prop where
  final : ∃ (ending : Ending) (V : Value → UInt64), c.Final x b ending e.reason ∧ ending.Holds V g out
  pc : e.pc = g.pc
  mem : m.state.mem = g.mem
  unit : ∀ u, m.state.unit u = if u = .gpr .zero then origin.unit u else g.unit u

/-- Where `$0` is zero the machine is at the state of the guest. -/
theorem Left.state_eq {b : Region.Block} {e : Exit} {m : Watched} (h : Left c origin x b g out e m)
    (hzero : origin.reg .zero = g.reg .zero) : { m.state with pc := e.pc } = g := by
  refine State.ext_units h.pc h.mem fun u => ?_
  rw [State.unit_pc, h.unit u]
  split
  · next hu =>
    rw [hu, State.unit, State.unit, hzero]
  · rfl

namespace Ended

/-- The table of the block of the region holds. -/
theorem body_agrees (h : Ended c d book origin k fr g) (hx : (book k).slot = x) :
    (book.body c x).table.Agrees fr.get g := fun u =>
  h.agrees x u (hx ▸ .refl _ _) (.inl hx.symm)

/-- The guest has the memory of the machine. -/
theorem mem_eq (h : Ended c d book origin k fr g) : g.mem = fr.machine.state.mem := by
  rw [h.machine]

end Ended

namespace Laid

variable (hc : c.Sound K n) (h : Laid c n d book)

include hc h

/-- Every block of the function but the first belongs to a block of the region, whose table it has at
its end. -/
theorem table_eq (hk : k < d.size) :
    c.Live (book k).slot ∧ (book k).table = (book.body c (book k).slot).table := by
  refine ⟨⟨_, (h.good k hk).block⟩, ?_⟩
  rcases Nat.lt_or_ge k n with hlt | hge
  · obtain ⟨x, hx, rfl⟩ := h.places k hlt
    have hslot := h.slot_eq hc hx
    rw [Book.body] at hslot
    rw [hslot, Book.body]
  · obtain ⟨x, hx, -, hbeside⟩ := h.sides k hge hk
    have hslot : (book k).slot = x := hbeside.slot.trans (h.slot_eq hc hx)
    obtain ⟨e, hclaim, -⟩ := hbeside.claim
    rw [hslot, ← hbeside.enter]
    exact ((h.good k hk).place.of_claim hclaim).2.2

/-- Values at hand at the end of a block of the region stay while control is in blocks that do not
dominate it. -/
theorem get_eq {a : Slot} (ha : c.Live a) (hv : (book.body c a).stop.avail v)
    (hkeep : ∀ v, v ∉ d.dsts k → fr'.get v = fr.get v)
    (hk : ∀ z, c.Live z → (c.place z).index = k → ¬ c.region.flowGraph.Dominates z a) :
    fr'.get v = fr.get v :=
  hkeep v (h.not_mem_dsts hc ha hv hk)

/-- The table at the end of a block has its types there. -/
theorem typed_body {a : Slot} (ha : c.Live a) :
    (book.body c a).table.Typed (.ofContext (book.body c a).stop) :=
  (h.good _ (Nat.lt_of_lt_of_le (hc.lt_of_live ha) h.room)).typed

omit h in
/-- What dominates a block of the region is a block of the region. -/
theorem live_of_dominates {a : Slot} (hx : c.Live x) (hdom : c.region.flowGraph.Dominates a x) :
    c.Live a :=
  Region.mem_nodes.1 ((hdom.reachable (hc.reachable hx)).mem_nodes hc.wellFormed)

/-! ## Blocks on the side -/

omit hc in
/-- Blocks of the function for one slot are for one block of the region. -/
theorem block_eq_of_slot_eq {l : Nat} (hk : k < d.size) (hl : l < d.size)
    (hslot : (book l).slot = (book k).slot) : (book l).block = (book k).block := by
  have heq := (h.good l hl).block
  rw [hslot, (h.good k hk).block] at heq
  exact (Option.some.inj heq).symm

omit h in
/-- Writing back the registers that the region writes leaves the units of the guest behind, but for
`$0`, which no region writes. -/
theorem unit_left (hend : Ended c d book origin k fr g) (u : Tracked) :
    (if u.home c.fp ∈ c.usage.written then g.unit u else fr.machine.state.unit u) =
      if u = .gpr .zero then origin.unit u else g.unit u := by
  have hunit : fr.machine.state.unit u = origin.unit u := by
    rw [hend.machine]
    exact State.unit_mem _ _ u
  by_cases hzero : u = .gpr .zero
  · have hnot : u.home c.fp ∉ c.usage.written := by
      subst hzero
      exact fun hmem => (hc.ready.usage.home _ (hc.ready.usage.written _ hmem)).2.1 rfl
    rw [if_neg hnot, if_pos hzero, hunit]
  · rw [if_neg hzero, hunit]
    split
    · rfl
    · next hu => exact (hend.frame u hu hzero).symm

/-- Control goes to a block on the side. It passes on from there or leaves the region. -/
theorem run_side {q : BlockId} {e : Ending} (hend : Ended c d book origin k fr g)
    (hway : .side q e ∈ (book k).out.ways) (hhold : e.Holds fr.get g out) :
    ∃ fr', Ssa.runBlock d.builder.function fr (some ⟨k⟩) q =
        .ok (fr', endBlock fr' ((book q.index).out.term c)) ∧
      fr.machine.Le fr'.machine ∧ (book q.index).slot = (book k).slot ∧
      (book q.index).block = (book k).block ∧
      (Ended c d book origin q.index fr' g ∧
          (book q.index).out.Leads c (book k).block fr'.get g out ∧
          (∀ pc reason, (book q.index).out ≠ .exit pc reason) ∨
        ∃ pc reason, (book q.index).out = .exit pc reason ∧
          Left c origin (book k).slot (book k).block g out ⟨(fr'.get pc).toUInt32, reason⟩
            fr'.machine) := by
  obtain ⟨hle, hlt, hclaim, hslot⟩ := h.points k hend.lt q e hway
  obtain ⟨x, hx, hne, hbeside⟩ := h.sides q.index hle hlt
  have hgood := h.good q.index hlt
  have hxq : (book q.index).slot = x := hbeside.slot.trans (h.slot_eq hc hx)
  have hxk : (book k).slot = x := hslot.symm.trans hxq
  have hblock : (book q.index).block = (book k).block := block_eq_of_slot_eq h hend.lt hlt hslot
  obtain ⟨e', hclaim', htyped⟩ := hbeside.claim
  obtain rfl : e = e' := Option.some.inj (hclaim.symm.trans hclaim')
  obtain ⟨fr', hrun, hsize, hkeep, -, hsat⟩ := h.runBlock hlt (some ⟨k⟩) hend.size
    (by simp [(hgood.place.of_claim hclaim).2.1])
  -- No value at hand in a block of the region is touched by a block on the side.
  have hV : ∀ a, c.Live a → ∀ v, (book.body c a).stop.avail v → fr'.get v = fr.get v := by
    intro a ha v hv
    refine h.get_eq hc ha hv hkeep fun z hz heq => ?_
    exact absurd (hc.lt_of_live hz) (Nat.not_lt_of_le (heq ▸ hle))
  have hagrees : (book q.index).enter.Agrees fr'.get g := by
    rw [hbeside.enter]
    exact fun u => (hend.body_agrees hxk u).congr (h.typed_body hc hx) (hV x hx) rfl
  have hhold' : e.Holds fr'.get g out := Ending.holds_congr htyped (hV x hx) hhold
  refine ⟨fr', hrun, hsat.le, hslot, hblock, ?_⟩
  have hdoes := hgood.does _ _ _ _ (h.fits hlt) hsat
  have hends := hgood.ends
  unfold Chunk.Does at hdoes
  unfold Chunk.Ends at hends
  cases hrole : (book q.index).role with
  | start | body =>
    rw [hrole] at hclaim
    cases hclaim
  | relay e₁ =>
    obtain rfl : e₁ = e := by
      rw [hrole] at hclaim
      exact Option.some.inj hclaim
    simp only [hrole] at hdoes hends
    obtain ⟨hmachine, hleads⟩ := hdoes
    refine .inl ⟨⟨hlt, hsize, ⟨_, hsat⟩, fun a u hdom hlasts => ?_, ?_, hend.frame⟩, ?_, hends⟩
    · rw [hslot] at hdom hlasts
      have ha := live_of_dominates hc (hxk ▸ hx) hdom
      exact (hend.agrees a u hdom hlasts).congr (h.typed_body hc ha) (hV a ha) rfl
    · rw [hmachine]
      exact hend.machine
    · rw [← hblock]
      exact hleads g out hagrees hhold'
  | exit e₁ =>
    obtain rfl : e₁ = e := by
      rw [hrole] at hclaim
      exact Option.some.inj hclaim
    simp only [hrole] at hdoes hends
    obtain ⟨pc, reason, hout, hfinal⟩ := hends
    obtain ⟨hmem, hback⟩ := hdoes
    obtain ⟨hpc, hback⟩ := hback g out hagrees hhold'
    rw [hout] at hpc
    have hpc' : (fr'.get pc).toUInt32 = g.pc := by
      rw [show fr'.get pc = g.pc.toUInt64 from hpc]
      simp
    exact .inr ⟨pc, reason, hout, ⟨e₁, fr'.get, hslot ▸ hblock ▸ hfinal, hhold'⟩, hpc',
      hmem.trans hend.mem_eq.symm, fun u => (hback u).trans (unit_left hc hend u)⟩

/-! ## Blocks of the region -/

omit h in
/-- Passing through a block leaves alone what it does not define. -/
theorem unit_eq_of_passes {safe : Memory → Prop} {b : Region.Block} {u : Tracked}
    (hb : c.region.block? y = some b) (hu : y ∉ c.usage.defBlocks (u.home c.fp))
    (hpass : b.Passes c.config.countInstructions safe g g' out) : g'.unit u = g.unit u := by
  have hdefs := mt (hc.ready.usage.defs y (u.home c.fp)).2 hu
  refine hpass.unit_eq (fun insn hi ref href hmem => ?_) fun hicnt hcount => ?_
  · refine hdefs ⟨b, hb, .inl ⟨insn, hi, ?_⟩⟩
    exact List.mem_flatMap.2 ⟨ref, href, Tracked.home_mem_ofRef hmem⟩
  · refine Nat.eq_zero_of_not_pos fun hpos => hdefs ⟨b, hb, .inr ⟨hcount, hpos, ?_⟩⟩
    subst hicnt
    rfl

omit hc h in
/-- What lasts to the end of a block lasted to the end of every block before it. -/
theorem lasts_pred {a : Slot} {u : Tracked} (hne : a ≠ y) (hedge : y ∈ c.region.flowGraph.succs x)
    (hquiet : Quiet c.region.flowGraph (c.Touches u) a y) : c.Lasts a x u := by
  by_cases hax : a = x
  · exact .inl hax
  · obtain ⟨hnot, hquiet⟩ := hquiet.of_edge hedge hax hne
    exact .inr ⟨hquiet, hnot⟩

omit h in
/-- A unit that is not merged in a block lasts from its immediate dominator on. -/
theorem quiet_of_idom {z : Slot} {u : Tracked} (hy : c.Live y) (hz : c.idom y = some z)
    (hu : u.home c.fp ∉ c.region.phisAt y) : Quiet c.region.flowGraph (c.Touches u) z y :=
  Flow.quiet_of_not_mem hc.ready.rooted (fun x y => hc.ready.phis_closed _ x y) (fun _ => .inr)
    (hc.reachable hy) hz hu

/-- The inputs of the merges of a block are what their registers hold where control comes from. -/
theorem input_value (hs : Supplied c book fun y _ => d.sourcesOf y) (hend : Ended c d book origin k fr g)
    (hy : c.Live y) (hne : y ≠ Region.entrySlot) (hway : .edge y ∈ (book k).out.ways) {mg : Merge}
    (hmg : mg ∈ (book.body c y).merges) :
    ∃ v, mg.inst.input? ⟨k⟩ = some v ∧ fr.get v = g.kept c.fp mg.reg := by
  obtain ⟨j, hj⟩ := List.getElem?_of_mem hmg
  obtain ⟨hsources, hsupplies⟩ := hs y hy hne j mg hj
  have hmem : (⟨k⟩ : BlockId) ∈ mg.incoming.map Prod.fst := by
    rw [hsources]
    exact h.mem_sourcesOf.2 ⟨hend.lt, hway⟩
  obtain ⟨p, hp, hfst⟩ := List.mem_map.1 hmem
  obtain ⟨⟨q, v⟩, hfind⟩ : ∃ q, mg.incoming.find? (·.1 == ⟨k⟩) = some q :=
    Option.isSome_iff_exists.1 (List.find?_isSome.2 ⟨p, hp, by simp [hfst]⟩)
  obtain rfl : q = ⟨k⟩ := by simpa using List.find?_some hfind
  refine ⟨v, by simp [Merge.inst, Inst.input?, hfind], ?_⟩
  obtain ⟨m, hsat⟩ := hend.sat
  refine (hsupplies _ (List.mem_of_find?_eq_some hfind)).value _ _ _ _ (h.fits hend.lt) hsat g ?_
  rw [(h.table_eq hc hend.lt).2]
  exact hend.body_agrees rfl

/-- Control goes over an edge, and the guest passes through the block it leads to. -/
theorem enter_body (hs : Supplied c book fun y _ => d.sourcesOf y)
    (hend : Ended c d book origin k fr g) (hway : .edge y ∈ (book k).out.ways) :
    ∃ fr' b g' out, Ssa.runBlock d.builder.function fr (some ⟨k⟩) (c.place y) =
        .ok (fr', endBlock fr' ((book.body c y).out.term c)) ∧
      fr.machine.Le fr'.machine ∧ c.region.block? y = some b ∧ (book.body c y).block = b ∧
      Ended c d book origin (c.place y).index fr' g' ∧
      (book.body c y).out.Leads c b fr'.get g' out ∧
      (∀ pc reason, (book.body c y).out ≠ .exit pc reason) ∧
      ∀ safe, SafeBetween safe fr.machine fr'.machine →
        b.Passes c.config.countInstructions safe g g' out := by
  obtain ⟨hy, hne, hedge⟩ := h.edge_live hc hend.lt hway
  have hi : (c.place y).index < d.size := Nat.lt_of_lt_of_le (hc.lt_of_live hy) h.room
  have hslot : (book (c.place y).index).slot = y := h.slot_eq hc hy
  have hgood := h.good _ hi
  have hrole : (book (c.place y).index).role = .body := h.role y hy hne
  have hinput : ∀ mg ∈ (book.body c y).merges, ∃ v, mg.inst.input? ⟨k⟩ = some v ∧
      fr.get v = g.kept c.fp mg.reg := fun mg hmg => h.input_value hc hs hend hy hne hway hmg
  obtain ⟨fr', hrun, hsize, hkeep, hget, hsat⟩ := h.runBlock hi (some ⟨k⟩) hend.size fun mg hmg => by
    obtain ⟨v, hv, -⟩ := hinput mg hmg
    exact ⟨_, v, rfl, hv⟩
  -- Values at hand above the block stay.
  have hV : ∀ a, c.region.flowGraph.Dominates a y → a ≠ y → ∀ v, (book.body c a).stop.avail v →
      fr'.get v = fr.get v := by
    intro a hdom hay v hv
    refine h.get_eq hc (live_of_dominates hc hy hdom) hv hkeep fun z hz heq hza => ?_
    obtain rfl := hc.place_inj hz hy heq
    exact hay (hdom.antisymm hza (hc.reachable hy))
  have habove : ∀ a u, c.region.flowGraph.Dominates a y → a ≠ y →
      Quiet c.region.flowGraph (c.Touches u) a y → ∀ g', g'.unit u = g.unit u →
      (book.body c a).table.AgreesAt fr'.get g' u := by
    intro a u hdom hay hquiet g' hunit
    refine (hend.agrees a u (hdom.of_succ hay hedge) (lasts_pred hay hedge hquiet)).congr
      (h.typed_body hc (live_of_dominates hc hy hdom)) (hV a hdom hay) hunit
  have hstarts : Starts c.fp (book (c.place y).index).enter (book (c.place y).index).phis fr'.get g := by
    refine ⟨fun u hu => ?_, fun p hp => ?_⟩
    · obtain ⟨z, hz, -⟩ := Graph.exists_idom hc.wellFormed (hc.reachable hy) hne
      have hdom := hc.below_of_idom hy hz
      rw [show (book (c.place y).index).enter = (book.body c z).table from (h.hangs y z hy hz).enter]
      refine habove z u hdom.1 hdom.2 (quiet_of_idom hc hy hz ?_) g rfl
      rw [← h.regs_eq hc hy hne]
      exact hu
    · obtain ⟨mg, hmg, rfl⟩ := List.mem_map.1 hp
      obtain ⟨v, hv, hkept⟩ := hinput mg hmg
      exact (hget mg hmg _ v rfl hv).trans hkept
  have hdoes := hgood.does _ _ _ _ (h.fits hi) hsat
  have hends := hgood.ends
  unfold Chunk.Does at hdoes
  unfold Chunk.Ends at hends
  simp only [hrole] at hdoes hends
  obtain ⟨g', out, hpass, hagrees, hmachine, hleads⟩ :=
    hdoes (fun _ => True) (fun _ _ _ => trivial) g hstarts hend.mem_eq
  have hblock := hgood.block
  rw [hslot] at hblock
  have hunit : ∀ u : Tracked, y ∉ c.usage.defBlocks (u.home c.fp) → g'.unit u = g.unit u := fun u hu =>
    unit_eq_of_passes hc hblock hu hpass
  refine ⟨fr', _, g', out, hrun, hsat.le, hblock, rfl, ⟨hi, hsize, ⟨_, hsat⟩, fun a u hdom hlasts => ?_,
    ?_, fun u hu => ?_⟩, hleads, hends, fun safe hsafe => ?_⟩
  · rw [hslot] at hdom hlasts
    by_cases hay : a = y
    · subst hay
      exact hagrees u
    · obtain ⟨hquiet, hnot⟩ := hlasts.resolve_left hay
      exact habove a u hdom hay hquiet g' (hunit u fun hdef => hnot (.inl hdef))
  · rw [hmachine, hend.machine]
  · intro hzero
    rw [hunit u fun hdef => hu (hc.ready.usage.ordered.mem_written.2 ⟨y, hdef⟩),
      hend.frame u hu hzero]
  · obtain ⟨g₁, out₁, hpass₁, -⟩ := hdoes safe hsafe g hstarts hend.mem_eq
    obtain ⟨rfl, rfl⟩ := hpass₁.unique hpass
    exact hpass₁

/-! ## From block to block -/

/-- Control goes from the synthetic entry to the first block of the region. -/
theorem run_start (m : Watched) (pc : UInt32) :
    ∃ fr' first, c.region.firstBlock? = some first ∧
      Ssa.runBlock d.builder.function ⟨Array.replicate d.types.size 0, m⟩ none Function.entry =
        .ok (fr', .block (c.place first)) ∧ fr'.machine = m ∧
      .edge first ∈ (book Function.entry.index).out.ways ∧
      Ended c d book m.state Function.entry.index fr' (m.state.enter pc) := by
  obtain ⟨eb, heb, -⟩ := hc.ready.entry
  have hlive : c.Live Region.entrySlot := ⟨eb, heb⟩
  have hplace : (c.place Region.entrySlot).index = Function.entry.index := by rw [hc.entry]
  have hlt : Function.entry.index < d.size := by
    rw [← hplace]
    exact Nat.lt_of_lt_of_le (hc.lt_of_live hlive) h.room
  have hbody : book.body c Region.entrySlot = book Function.entry.index := by rw [Book.body, hplace]
  have hslot : (book Function.entry.index).slot = Region.entrySlot := by
    rw [← hbody]
    exact h.slot_eq hc hlive
  have hrole : (book Function.entry.index).role = .start := by
    rw [← hbody]
    exact h.start
  have hgood := h.good _ hlt
  have hplaced := hgood.place
  have hends := hgood.ends
  unfold Chunk.InPlace at hplaced
  unfold Chunk.Ends at hends
  simp only [hrole] at hplaced hends
  -- The synthetic entry has no merges and one way out, to the first block.
  obtain ⟨first, hfirst, hout⟩ := hends
  have hblank : (⟨Array.replicate d.types.size 0, m⟩ : Frame Watched).values.size = d.types.size := by
    simp
  obtain ⟨fr', hrun, hsize, -, -, hsat⟩ := h.runBlock hlt none hblank (by simp [hplaced.2.2])
  have hdoes := hgood.does _ _ _ _ (h.fits hlt) hsat
  unfold Chunk.Does at hdoes
  simp only [hrole] at hdoes
  obtain ⟨hmachine, hagrees⟩ := hdoes
  rw [hout] at hrun
  refine ⟨fr', first, hfirst, hrun, hmachine, ?_, hlt, hsize, ⟨_, hsat⟩, fun a u hdom _ => ?_, ?_,
    fun u _ hu => State.unit_enter _ pc hu⟩
  · rw [hout]
    exact List.mem_singleton.2 rfl
  · rw [hslot] at hdom
    obtain rfl : a = Region.entrySlot := hdom.eq_entry
    rw [hbody]
    exact hagrees pc u
  · rw [hmachine]
    rfl

omit hc h in
/-- The end of a block takes one of its ways, and that leads to where the guest goes on. -/
theorem exists_way {o : Outlet} {b : Region.Block} (hleads : o.Leads c b fr.get g out)
    (hout : ∀ pc reason, o ≠ .exit pc reason) :
    ∃ w ∈ o.ways, endBlock fr (o.term c) = .block (w.id c) ∧ w.Leads c b fr.get g out := by
  cases o with
  | goto w => exact ⟨w, List.mem_singleton.2 rfl, rfl, hleads⟩
  | exit pc reason => exact absurd rfl (hout pc reason)
  | fork cond ifTrue ifFalse weights =>
    refine ⟨_, ?_, ?_, hleads⟩
    · simp only [Outlet.ways]
      split <;> simp
    · simp only [Outlet.term, endBlock, Frame.isTrue]
      exact congrArg Next.block (apply_ite (Way.id c) _ _ _).symm

/-- From the end of a block control comes to an edge or leaves the region, over blocks on the side. -/
theorem follow (hend : Ended c d book origin k fr g)
    (hleads : (book k).out.Leads c (book k).block fr.get g out)
    (hout : ∀ pc reason, (book k).out ≠ .exit pc reason) :
    ∃ j, (∃ k' y fr', Ended c d book origin k' fr' g ∧ .edge y ∈ (book k').out.ways ∧
        c.next (book k).block g out = some y ∧ fr.machine.Le fr'.machine ∧
        ∀ fuel, resume d.builder.function (fuel + j) fr ⟨k⟩ (endBlock fr ((book k).out.term c)) =
          runFrom d.builder.function fuel fr' (some ⟨k'⟩) (c.place y)) ∨
      ∃ e m, Left c origin (book k).slot (book k).block g out e m ∧ fr.machine.Le m ∧
        ∀ fuel, resume d.builder.function (fuel + j) fr ⟨k⟩ (endBlock fr ((book k).out.term c)) =
          .exited e m := by
  -- Blocks on the side come later in the function.
  generalize hN : d.size - k = N
  induction N using Nat.strongRecOn generalizing k fr with
  | ind N ih =>
    subst hN
    obtain ⟨w, hw, hnext, hleads⟩ := exists_way hleads hout
    rw [hnext]
    cases w with
    | edge y => exact ⟨0, .inl ⟨k, y, fr, hend, hw, hleads, .refl _, fun _ => rfl⟩⟩
    | side q e =>
      obtain ⟨fr₁, hrun, hle, hslot, hblock, ⟨hend₁, hleads₁, hout₁⟩ | ⟨pc, reason, hexit, hleft⟩⟩ :=
        h.run_side hc hend hw hleads
      · have hlt := (h.good k hend.lt).sides q e hw
        have hlt₁ := hend₁.lt
        rw [← hblock] at hleads₁ ⊢
        obtain ⟨j, hrest⟩ := ih _ (by omega) hend₁ hleads₁ hout₁ rfl
        have hstep : ∀ fuel, resume d.builder.function (fuel + (j + 1)) fr ⟨k⟩ (.block q) =
            resume d.builder.function (fuel + j) fr₁ q
              (endBlock fr₁ ((book q.index).out.term c)) := fun fuel => runFrom_succ hrun _
        refine ⟨j + 1, hrest.imp ?_ ?_⟩
        · rintro ⟨k', y, fr', hend', hway', hnext', hle', hgo⟩
          exact ⟨k', y, fr', hend', hway', hnext', hle.trans hle',
            fun fuel => (hstep fuel).trans (hgo fuel)⟩
        · rintro ⟨e', m, hleft, hle', hgo⟩
          exact ⟨e', m, hslot ▸ hleft, hle.trans hle', fun fuel => (hstep fuel).trans (hgo fuel)⟩
      · refine ⟨1, .inr ⟨_, _, hleft, hle, fun fuel => ?_⟩⟩
        change runFrom d.builder.function (fuel + 1) fr (some ⟨k⟩) q = _
        rw [runFrom_succ hrun, hexit]
        rfl

end Laid

end HotRegion.Lowering
