import HotRegion.Proofs.Lowering.Layout

/-!
# Leaving a block

The edges and exits that are made at the end of a block. They are made one after the other, and the
block ends when they are all there: `Arming` is the state in between. A register jump is compared
with its targets one by one, each in a block of its own on the side.

## Key results

- `Arming.finish`: the block ends
- `leave_spec`: the edges and exits of any ending
-/

namespace HotRegion.Lowering

open Isa Analysis Ssa Build
open Machine (State)
open Region (Tracked Slot Departure)

/-! ## Scopes -/

/-- The scope of a ready region: every block of the region has a block of its own among the first
`n` blocks of the function. -/
structure Scope.Sound (c : Scope) (K : UInt32 × UInt32 → Prop) (n : Nat) : Prop where
  ready : Region.Ready K c.config.countInstructions c.region c.usage
  can : ∀ s b, s ≠ Region.entrySlot → c.region.block? s = some b → ∀ w ∈ b.words,
    (decode w).canCompile = true
  mark : ∀ s b, s ≠ Region.entrySlot → c.region.block? s = some b → b.isRegionEntry = false
  place : ∀ s b, c.region.block? s = some b → c.blockOf s = .ok (c.place s) ∧
    (c.place s).index < n
  entry : c.place Region.entrySlot = Function.entry
  inj : ∀ s t a b, c.region.block? s = some a → c.region.block? t = some b →
    (c.place s).index = (c.place t).index → s = t

variable {c : Scope} {K : UInt32 × UInt32 → Prop} {n i j : Nat} {d₀ d d' : Draft} {ch : Chunk}
  {ws : List Way} {Q Q' : (Value → UInt64) → State → Departure → Prop}

/-- The successors of a block are blocks of the region. -/
theorem Scope.Sound.succ_live {s : Slot} {b : Region.Block} (hc : c.Sound K n)
    (hb : c.region.block? s = some b) : ∀ y ∈ b.succs, ∃ t, c.region.block? y = some t := by
  intro y hy
  rw [← Region.succs_of_block hb] at hy
  exact Region.mem_nodes.1 (hc.ready.rooted.target_mem s y hy)

/-- The successors of a block have blocks of the function. -/
theorem Scope.Sound.blockOf_succ {s y : Slot} {b : Region.Block} (hc : c.Sound K n)
    (hb : c.region.block? s = some b) (hy : y ∈ b.succs) : c.blockOf y = .ok (c.place y) := by
  obtain ⟨t, ht⟩ := hc.succ_live hb y hy
  exact (hc.place y t ht).1

namespace Way

/-- An edge to a successor, or the way to an exit where there is none. -/
def toward (target : Option Slot) (k : BlockId) (e : Ending) : Way :=
  match target with
  | some y => edge y
  | none => side k e

@[simp] theorem slot?_toward (target : Option Slot) (k : BlockId) (e : Ending) :
    (toward target k e).slot? = target := by
  cases target <;> rfl

/-- The way for a direction leads where the guest goes on, to a successor or out of the region. -/
theorem leads_toward {target : Option Slot} {k : BlockId} {e : Ending} {b : Region.Block}
    {V : Value → UInt64} {g : State} {out : Departure} (hnext : c.next b g out = target)
    (hnone : target = none → e.Holds V g out) : (toward target k e).Leads c b V g out := by
  cases target with
  | some y => exact hnext
  | none => exact hnone rfl

end Way

/-! ## Books -/

/-- The descriptions of the blocks of a function by their numbers. -/
abbrev Book := Nat → Chunk

namespace Book

/-- The book with another description of a block. -/
def set (book : Book) (i : Nat) (ch : Chunk) : Book := fun k => if k = i then ch else book k

@[simp] theorem set_self (book : Book) (i : Nat) (ch : Chunk) : book.set i ch i = ch := if_pos rfl

/-- The other descriptions in the book stay. -/
theorem set_of_ne (book : Book) {i k : Nat} (ch : Chunk) (h : k ≠ i) :
    book.set i ch k = book k := if_neg h

end Book

variable {book book' : Book}

/-- Only exits leave the region. -/
theorem Chunk.Ends.of_role (hrole : ch.role = .body ∨ ∃ e, ch.role = .relay e)
    (h : ∀ pc reason, ch.out ≠ .exit pc reason) : ch.Ends c := by
  unfold Chunk.Ends
  rcases hrole with hrole | ⟨e, hrole⟩ <;> simp only [hrole] <;> exact h

/-- The blocks that are changed or made where block `i` is left. -/
def Mine (i : Nat) (d₀ d : Draft) (k : Nat) : Prop := k = i ∨ d₀.size ≤ k ∧ k < d.size

/-- Blocks on the side of block `i`, which has the description `ch`, are made from `d₀` on. All of
them are as the book says, but for those that are not finished. -/
structure Spread (c : Scope) (n i : Nat) (ch : Chunk) (d₀ d : Draft) (book : Book)
    (but : Nat → Prop) : Prop where
  grown : Grown (· = i) d₀ d
  stands : d.cur < d.size
  phis : d.phis = d₀.phis
  main : ch.Extends (book i)
  beside : ∀ k, d₀.size ≤ k → k < d.size → ch.Beside (book k)
  good : ∀ k, Mine i d₀ d k → ¬ but k → Good c n d k (book k)
  points : ∀ k, Mine i d₀ d k → ¬ but k → ∀ q e, .side q e ∈ (book k).out.ways →
    d₀.size ≤ q.index ∧ q.index < d.size ∧ (book q.index).role.claim = some e

/-- Of the blocks that `d` has, `book'` describes only block `j` in another way, and that one
further on. -/
structure Book.Revises (d : Draft) (j : Nat) (book book' : Book) : Prop where
  same : ∀ k, k < d.size → k ≠ j → book' k = book k
  own : (book j).Extends (book' j)

/-- What a book describes is extended in a revised one. -/
theorem Book.Revises.extends {k : Nat} (h : book.Revises d j book') (hk : k < d.size) :
    (book k).Extends (book' k) := by
  by_cases hkj : k = j
  · rw [hkj]
    exact h.own
  · rw [h.same k hk hkj]
    exact .refl _

/-- A description of a new block. -/
theorem Book.Revises.add (book : Book) (side : Chunk) (hj : j < d.size) :
    book.Revises d j (book.set d.size side) where
  same k hk _ := book.set_of_ne side (Nat.ne_of_lt hk)
  own := by
    rw [book.set_of_ne side (Nat.ne_of_lt hj)]
    exact .refl _

/-- A further description of block `j`. -/
theorem Book.Revises.replace {ch' : Chunk} (h : (book j).Extends ch') :
    book.Revises d j (book.set j ch') where
  same _ _ hkj := book.set_of_ne ch' hkj
  own := by
    rw [Book.set_self]
    exact h

/-- Revising twice is revising. -/
theorem Book.Revises.trans {book'' : Book} (h : book.Revises d j book')
    (h' : book'.Revises d j book'') : book.Revises d j book'' where
  same k hk hkj := (h'.same k hk hkj).trans (h.same k hk hkj)
  own := h.own.trans h'.own

/-- What is done at block `j` and in new blocks keeps the other blocks as the book says, so that
only these are to be looked at. -/
theorem Spread.update {but : Nat → Prop} (h : Spread c n i ch d₀ d book (· = j)) (hi : i < d₀.size)
    (hj : Mine i d₀ d j) (hgrown : Grown (· = j) d d') (hcur : d'.cur < d'.size)
    (hphis : d'.phis = d.phis) (hbook : book.Revises d j book')
    (hbeside : ∀ k, d.size ≤ k → k < d'.size → ch.Beside (book' k))
    (hgood : ∀ k, Mine j d d' k → ¬ but k → Good c n d' k (book' k))
    (hpoints : ∀ k, Mine j d d' k → ¬ but k → ∀ q e, .side q e ∈ (book' k).out.ways →
      d₀.size ≤ q.index ∧ q.index < d'.size ∧ (book' q.index).role.claim = some e) :
    Spread c n i ch d₀ d' book' but := by
  have hsize := h.grown.size
  have hsize' := hgrown.size
  -- A block is at hand now, or it was there before and is not block `j`.
  have hcases : ∀ k, Mine i d₀ d' k → Mine j d d' k ∨ (k < d.size ∧ k ≠ j ∧ Mine i d₀ d k) := by
    intro k hk
    by_cases hkj : k = j
    · exact .inl (.inl hkj)
    · rcases Nat.lt_or_ge k d.size with hlt | hge
      · exact .inr ⟨hlt, hkj, hk.imp_right fun hk => ⟨hk.1, hlt⟩⟩
      · exact .inl (.inr ⟨hge, hk.elim (by omega) (·.2)⟩)
  constructor
  case grown => exact h.grown.weaken hgrown fun k hk => hk ▸ hj.imp_right (·.1)
  case stands => exact hcur
  case phis => exact hphis.trans h.phis
  case main => exact h.main.trans (hbook.extends (by omega))
  case beside =>
    intro k hle hk
    rcases Nat.lt_or_ge k d.size with hlt | hge
    · exact (h.beside k hle hlt).extends (hbook.extends hlt)
    · exact hbeside k hge hk
  case good =>
    intro k hk hne
    rcases hcases k hk with hm | ⟨hlt, hkj, hm⟩
    · exact hgood k hm hne
    · rw [hbook.same k hlt hkj]
      exact (h.good k hm hkj).mono hgrown hkj
  case points =>
    intro k hk hne q e hq
    rcases hcases k hk with hm | ⟨hlt, hkj, hm⟩
    · exact hpoints k hm hne q e hq
    · rw [hbook.same k hlt hkj] at hq
      obtain ⟨hle, hlt', hclaim⟩ := h.points k hm hkj q e hq
      exact ⟨hle, by omega, by rw [(hbook.extends hlt').role]; exact hclaim⟩

/-- The edges and exits for the ways `ws` are made at the end of block `j`, where `Q` holds of the
guest. -/
structure Arming (c : Scope) (n i : Nat) (ch : Chunk) (d₀ d : Draft) (book : Book) (j : Nat)
    (Q : (Value → UInt64) → State → Departure → Prop) (ws : List Way) : Prop
    extends Spread c n i ch d₀ d book (· = j) where
  tidy : d₀.Tidy
  room : n ≤ d₀.size
  lt : i < d₀.size
  fit : ch.Fit c d₀
  begun : Begun c n d j (book j) Q
  cur : d.cur = j
  mine : Mine i d₀ d j
  role : (book j).role = .body ∨ ∃ e, (book j).role = .relay e
  table : (book j).table = ch.table
  block : (book j).block = ch.block
  le : ch.stop.Le (book j).stop
  edges : d.edges.toList.filter (·.source.index == j) =
    (ws.filterMap Way.slot?).map fun y => ⟨y, ⟨j⟩, ch.table⟩
  ways : ∀ k e', .side k e' ∈ ws → j < k.index ∧ d₀.size ≤ k.index ∧ k.index < d.size ∧
    (book k.index).role.claim = some e'

namespace Arming

/-- Nothing is made yet. -/
theorem start (hch : Begun c n d i ch Q) (hcur : d.cur = i) (hrole : ch.role = .body)
    (htidy : d.Tidy) (hn : n ≤ d.size)
    (hedges : d.edges.toList.filter (·.source.index == i) = []) :
    Arming c n i ch d d (fun _ => ch) i Q [] where
  grown := .refl _ d
  stands := hcur ▸ hch.lt_size
  phis := rfl
  main := .refl ch
  beside k hle hlt := absurd hle (Nat.not_le_of_lt hlt)
  good k hk hne := by
    rcases hk with rfl | hk
    · exact absurd rfl hne
    · omega
  points k hk hne := by
    rcases hk with rfl | hk
    · exact absurd rfl hne
    · omega
  tidy := htidy
  room := hn
  lt := hch.lt_size
  fit := hch.fit
  begun := hch
  cur := hcur
  mine := .inl rfl
  role := .inl hrole
  table := rfl
  block := rfl
  le := .refl _
  edges := hedges
  ways _ _ h := absurd h List.not_mem_nil

/-- The block that is armed is one of the function. -/
theorem lt_size (h : Arming c n i ch d₀ d book j Q ws) : j < d.size := h.begun.lt_size

/-- An edge into the region. -/
theorem edge (h : Arming c n i ch d₀ d book j Q ws) (y : Slot) :
    Arming c n i ch d₀ (d.note y ch.table) book j Q (ws ++ [.edge y]) := by
  have hnote : Grown (· = j) d (d.note y ch.table) :=
    grown_note y ch.table h.cur (h.cur ▸ h.lt_size)
  have hways : ∀ k e, .side k e ∈ ws ++ [Way.edge y] → .side k e ∈ ws := by simp
  refine { h with
    grown := h.grown.weaken hnote fun k hk => hk ▸ h.mine.imp_right (·.1)
    good := fun k hk hne => (h.good k hk hne).mono hnote hne
    begun := h.begun.mono hnote rfl
    edges := ?_
    ways := fun k e hk => h.ways k e (hways k e hk) }
  rw [Draft.edges_note, List.filter_append, h.edges, h.cur]
  simp [Way.slot?]

/-- An exit. -/
theorem exit {pc : ExitPc} {reason : ExitReason} {e' : Ending}
    (hu : c.usage.Describes c.region c.config.countInstructions)
    (h : Arming c n i ch d₀ d book j Q ws) (hat : pc.At e') (he : e'.Typed (.ofContext ch.stop))
    (hfinal : c.Final ch.slot ch.block e' reason) :
    ∃ k d' side, c.exitBlock ch.table pc reason d = .ok (k, d') ∧
      Arming c n i ch d₀ d' (book.set d.size side) j Q (ws ++ [.side k e']) := by
  have hlt := h.lt_size
  obtain ⟨d', side, hrun, hgrown, hsize, hcur, hedges, hphis, hgood, hrole, hbeside, hways⟩ :=
    exitBlock_spec hu (h.grown.tidy h.tidy) (h.cur ▸ hlt) (Nat.le_trans h.room h.grown.size)
      (h.fit.mono h.grown) hat he hfinal
  have hgrown' : Grown (· = j) d d' := .weaken (.refl _ d) hgrown fun _ hf => hf.elim
  have hold : ∀ k, k < d.size → book.set d.size side k = book k := fun k hk =>
    book.set_of_ne side (Nat.ne_of_lt hk)
  have hstands : d'.cur < d'.size := by
    rw [hcur]
    exact Nat.lt_of_lt_of_le h.stands hgrown.size
  -- The exit is the only new block, and nothing goes on from it.
  have hnew : ∀ k, Mine j d d' k → k ≠ j → k = d.size := by
    rintro k (hk | ⟨hle, hk⟩) hne
    · exact absurd hk hne
    · omega
  refine ⟨⟨d.size⟩, d', side, hrun, { h with
    toSpread := h.update h.lt h.mine hgrown' hstands hphis (.add book side hlt) ?_ ?_ ?_
    begun := ?_
    cur := hcur.trans h.cur
    mine := h.mine.imp_right fun hm => ⟨hm.1, by omega⟩
    role := by rw [hold j hlt]; exact h.role
    table := by rw [hold j hlt]; exact h.table
    block := by rw [hold j hlt]; exact h.block
    le := by rw [hold j hlt]; exact h.le
    edges := ?_
    ways := ?_ }⟩
  · intro k hle hk
    rw [show k = d.size by omega, Book.set_self]
    exact hbeside
  · intro k hk hne
    rw [hnew k hk hne, Book.set_self]
    exact hgood
  · intro k hk hne q e hq
    rw [hnew k hk hne, Book.set_self, hways] at hq
    cases hq
  · rw [hold j hlt]
    exact h.begun.mono hgrown (hgrown.view j hlt id)
  · rw [hedges, h.edges]
    simp [Way.slot?]
  · intro k e hk
    rcases List.mem_append.1 hk with hk | hk
    · obtain ⟨hjk, hle, hk', hclaim⟩ := h.ways k e hk
      rw [hold _ hk']
      exact ⟨hjk, hle, by omega, hclaim⟩
    · cases List.mem_singleton.1 hk
      rw [Book.set_self, hrole]
      exact ⟨hlt, h.grown.size, by simp [hsize], rfl⟩

/-- The way for one direction. -/
theorem edgeTo (hc : c.Sound K n) (h : Arming c n i ch d₀ d book j Q ws) (target : Option Slot)
    (addr : UInt32) (reason : ExitReason) (hsome : ∀ y, target = some y → y ∈ ch.block.succs)
    (hnone : target = none → c.Final ch.slot ch.block (.goto addr reason) reason) :
    ∃ k d' book', c.edgeTo target ch.table addr reason d =
        .ok ((Way.toward target k (.goto addr reason)).id c, d') ∧
      Arming c n i ch d₀ d' book' j Q (ws ++ [.toward target k (.goto addr reason)]) ∧
      book' j = book j := by
  cases target with
  | some y =>
    refine ⟨Function.entry, _, book, ?_, h.edge y, rfl⟩
    change (Scope.noteEdge y ch.table >>= fun _ => liftM (c.blockOf y)) d = _
    rw [run_bind (noteEdge_run y ch.table), hc.blockOf_succ h.fit.block (hsome y rfl)]
    rfl
  | none =>
    have hat : (ExitPc.known addr).At (.goto addr reason) := rfl
    obtain ⟨k, d', side, hrun, hnext⟩ := h.exit hc.ready.usage hat trivial (hnone rfl)
    exact ⟨k, d', _, hrun, hnext, book.set_of_ne side (Nat.ne_of_lt h.lt_size)⟩

/-- The block ends with all its ways in place. -/
theorem finish {o : Outlet} (h : Arming c n i ch d₀ d book j Q ws) (hways : o.ways = ws)
    (hleads : ∀ V g out, ch.table.Agrees V g → Q V g out → o.Leads c ch.block V g out)
    (htyped : o.Typed (book j).stop) (hnodup : o.slots.Nodup)
    (hslots : ∀ y ∈ o.slots, y ∈ ch.block.succs) (hexit : ∀ pc reason, o ≠ .exit pc reason) :
    Spread c n i ch d₀ (d.finish (o.term c)) (book.set j { book j with out := o })
      (fun _ => False) := by
  subst hways
  let ch' : Chunk := { book j with out := o }
  have hfinish : Grown (· = j) d (d.finish (o.term c)) := grown_finish _ h.cur
  have hbook : book.Revises d j (book.set j ch') := .replace ((book j).extends_out o)
  have hgood : Good c n (d.finish (o.term c)) j ch' := by
    refine h.begun.close h.cur ?_ htyped ?_ hnodup ?_ (fun k e' hk => (h.ways k e' hk).1)
      (.of_role h.role hexit)
    · rw [h.table, h.block]
      exact hleads
    · rw [h.edges, h.table]
      rfl
    · rw [h.block]
      exact hslots
  -- No block is new, so the book changes at `j` alone.
  have hnew : ∀ k, Mine j d (d.finish (o.term c)) k → k = j := by
    rintro k (hk | ⟨hle, hk⟩)
    · exact hk
    · rw [Draft.size_finish] at hk
      omega
  have hcur : (d.finish (o.term c)).cur < (d.finish (o.term c)).size := by
    rw [Draft.size_finish]
    exact h.stands
  refine h.update h.lt h.mine hfinish hcur rfl hbook ?_ ?_ ?_
  · intro k hle hk
    rw [Draft.size_finish] at hk
    omega
  · intro k hk _
    rw [hnew k hk, Book.set_self]
    exact hgood
  · intro k hk _ q e hq
    rw [hnew k hk, Book.set_self] at hq
    obtain ⟨-, hle, hlt, hclaim⟩ := h.ways q e hq
    rw [Draft.size_finish, (hbook.extends hlt).role]
    exact ⟨hle, hlt, hclaim⟩

end Arming

/-! ## Endings -/

/-- The truth value of a branch decides its way. -/
private theorem toUInt64_and_one (x : Bool) : (x.toUInt64 &&& 1 == 1) = x := by
  cases x <;> rfl

/-- Going on at a known address. -/
theorem leave_goto (hc : c.Sound K n) {addr : UInt32} {reason : ExitReason}
    (h : Arming c n i ch d₀ d book i (fun V g out => (Ending.goto addr reason).Holds V g out) [])
    (hof : (Ending.goto addr reason).Of c ch.slot ch.block) :
    ∃ d' book', c.leave ch.block (.goto addr reason) ch.table d = .ok ((), d') ∧
      Spread c n i ch d₀ d' book' fun _ => False := by
  let target := c.succAt? ch.block addr
  have hsucc : ∀ y, target = some y → y ∈ ch.block.succs := fun y hy => (Scope.succAt?_spec hy).1
  obtain ⟨k, d₁, book₁, hrun, harm, -⟩ := h.edgeTo hc target addr reason hsucc (.here hof)
  let w := Way.toward target k (.goto addr reason)
  -- The only way leads to the successor, if there is one.
  have hslots : (Outlet.goto w).slots = target.toList := by
    cases ht : target <;> simp [w, ht, Outlet.slots, Outlet.ways]
  refine ⟨d₁.finish (.jump (w.id c)), _, ?_, harm.finish (o := .goto w) rfl ?_ trivial ?_ ?_ ?_⟩
  · have hfound : (liftM (c.succAt ch.block addr) : Walk (Option Slot)) d = .ok (target, d) := by
      rw [Scope.succAt_eq_ok (hc.succ_live h.fit.block)]
      rfl
    change ((liftM (c.succAt ch.block addr) : Walk (Option Slot)) >>= fun target =>
      c.edgeTo target ch.table addr reason >>= fun k => liftM (terminate (.jump k))) d = _
    rw [run_bind hfound, run_bind hrun, terminate_run]
  · rintro V g out - ⟨rfl, rfl⟩
    exact Way.leads_toward rfl fun _ => ⟨rfl, rfl⟩
  · rw [hslots]
    cases target <;> simp
  · rw [hslots]
    exact fun y hy => hsucc y (Option.mem_toList.1 hy)
  · exact fun _ _ h => by cases h

/-- Where a branch goes on when it is taken: one that nullifies its delay slot goes on with the
block of that slot. -/
private def takenSucc? (c : Scope) (b : Region.Block) (taken : UInt32) (likely : Bool) :
    Option Slot :=
  if likely then c.succ? b (·.isPatch) else c.succAt? b taken

/-- Looking for that block does not break down. -/
private theorem takenSucc_eq_ok {b : Region.Block} {taken : UInt32} {likely : Bool}
    (hlive : ∀ y ∈ b.succs, ∃ t, c.region.block? y = some t) :
    c.takenSucc b taken likely = .ok (takenSucc? c b taken likely) := by
  unfold Scope.takenSucc takenSucc?
  cases likely with
  | true => exact Scope.findSucc_eq_ok hlive _
  | false => exact Scope.succAt_eq_ok hlive _

/-- Why a region is left where a branch is not taken. -/
private def untakenReason (likely : Bool) : ExitReason :=
  if likely then .likelyUntaken else .fallthrough

/-- A branch that is not taken leaves for no taken target. -/
private theorem isTaken_untakenReason (likely : Bool) : isTaken (untakenReason likely) = false := by
  cases likely <;> rfl

/-- The way of a taken branch is one of the successors. -/
private theorem mem_succs_of_takenSucc? {b : Region.Block} {taken : UInt32} {likely : Bool} {y : Slot}
    (h : takenSucc? c b taken likely = some y) : y ∈ b.succs := by
  unfold takenSucc? at h
  split at h
  · exact List.mem_of_find?_eq_some h
  · exact (Scope.succAt?_spec h).1

section Fork

variable {cond : Value} {taken notTaken : UInt32} {likely : Bool}

/-- Where a branch goes on. -/
private theorem next_fork {b : Region.Block} {V : Value → UInt64} {g : State} {out : Departure}
    (h : (Ending.fork cond taken notTaken likely).Holds V g out) :
    c.next b g out = if out.taken then takenSucc? c b taken likely else c.succAt? b notTaken := by
  obtain ⟨taken', pending⟩ := out
  obtain ⟨-, hpend, hpc⟩ := h
  simp only at hpend hpc
  subst hpend
  cases likely <;> cases taken' <;> simp_all [Scope.next, takenSucc?]

/-- A branch both ways to one successor is a jump. -/
private theorem leave_fork_same {b : Region.Block} {t : RegTable} {x : Slot}
    (hlive : ∀ y ∈ b.succs, ∃ t, c.region.block? y = some t)
    (htaken : takenSucc? c b taken likely = some x) (hnotTaken : c.succAt? b notTaken = some x) :
    c.leave b (.fork cond taken notTaken likely) t = c.jumpTo x t := by
  simp only [Scope.leave, takenSucc_eq_ok hlive, Scope.succAt_eq_ok hlive, htaken, hnotTaken,
    liftExcept_ok, pure_bind]
  exact if_pos trivial

/-- Any other branch has two ways to go on. -/
private theorem leave_fork_two {b : Region.Block} {t : RegTable}
    (hlive : ∀ y ∈ b.succs, ∃ t, c.region.block? y = some t)
    (hne : ¬ ∃ x, takenSucc? c b taken likely = some x ∧ c.succAt? b notTaken = some x) :
    c.leave b (.fork cond taken notTaken likely) t =
      c.forkTo cond (takenSucc? c b taken likely) (c.succAt? b notTaken) taken notTaken likely t := by
  simp only [Scope.leave, takenSucc_eq_ok hlive, Scope.succAt_eq_ok hlive, liftExcept_ok, pure_bind]
  cases htaken : takenSucc? c b taken likely with
  | none => rfl
  | some x =>
    cases hnotTaken : c.succAt? b notTaken with
    | none => rfl
    | some y =>
      have hxy : x ≠ y := fun hxy => hne ⟨x, htaken, hxy ▸ hnotTaken⟩
      exact if_neg hxy

/-- The ways of a branch lead where it goes on: its truth value takes the first if it is taken. -/
private theorem leads_fork {weights : Option (UInt32 × UInt32)} {b : Region.Block} {k₁ k₂ : BlockId}
    {V : Value → UInt64} {g : State} {out : Departure}
    (hlikely : takenSucc? c b taken likely = none → likely = false)
    (h : (Ending.fork cond taken notTaken likely).Holds V g out) :
    (Outlet.fork cond (.toward (takenSucc? c b taken likely) k₁ (.goto taken .branchTarget))
      (.toward (c.succAt? b notTaken) k₂ (.goto notTaken (untakenReason likely))) weights).Leads
        c b V g out := by
  have hnext := next_fork (c := c) (b := b) h
  obtain ⟨hcond, hpend, hpc⟩ := h
  change (if V cond &&& 1 == 1 then Way.toward _ _ _ else Way.toward _ _ _).Leads c b V g out
  -- The condition is the decision of the guest, so the way out is the one it takes.
  rw [hcond, toUInt64_and_one]
  cases ht : out.taken with
  | true =>
    rw [ht, if_pos rfl] at hnext
    refine Way.leads_toward hnext fun hnone => ?_
    obtain rfl := hlikely hnone
    exact ⟨by simpa [hpend, ht] using hpc, by cases out; simp_all [isTaken]⟩
  | false =>
    rw [ht, if_neg (by simp)] at hnext
    refine Way.leads_toward hnext fun hnone => ⟨by simpa [hpend, ht] using hpc, ?_⟩
    rw [isTaken_untakenReason]
    cases out
    simp_all

/-- Going on at one of two addresses. -/
theorem leave_fork (hc : c.Sound K n)
    (h : Arming c n i ch d₀ d book i
      (fun V g out => (Ending.fork cond taken notTaken likely).Holds V g out) [])
    (hcond : (Site.ofContext ch.stop).Has cond .i1)
    (hof : (Ending.fork cond taken notTaken likely).Of c ch.slot ch.block)
    (hpatch : likely = true → c.succ? ch.block (·.isPatch) ≠ none) :
    ∃ d' book', c.leave ch.block (.fork cond taken notTaken likely) ch.table d = .ok ((), d') ∧
      Spread c n i ch d₀ d' book' fun _ => False := by
  have hnotTaken : ∀ y, c.succAt? ch.block notTaken = some y → y ∈ ch.block.succs := fun y hy =>
    (Scope.succAt?_spec hy).1
  by_cases hsame : ∃ x, takenSucc? c ch.block taken likely = some x ∧
      c.succAt? ch.block notTaken = some x
  -- Both ways lead to one successor, so the branch is a jump and nobody asks for the condition.
  · obtain ⟨x, hx₁, hx₂⟩ := hsame
    refine ⟨_, _, ?_, (h.edge x).finish (o := .goto (.edge x)) rfl ?_ trivial
      (by simp [Outlet.slots, Outlet.ways, Way.slot?]) ?_ fun _ _ h => by cases h⟩
    · rw [leave_fork_same (hc.succ_live h.fit.block) hx₁ hx₂]
      change (Scope.noteEdge x ch.table >>= fun _ => liftM (c.blockOf x) >>= fun k =>
        liftM (terminate (.jump k))) d = _
      rw [run_bind (noteEdge_run x ch.table),
        hc.blockOf_succ h.fit.block (mem_succs_of_takenSucc? hx₁)]
      rfl
    · intro V g out _ hold
      change c.next ch.block g out = some x
      rw [next_fork hold]
      split
      · exact hx₁
      · exact hx₂
    · intro y hy
      obtain rfl : y = x := by simpa [Outlet.slots, Outlet.ways, Way.slot?] using hy
      exact mem_succs_of_takenSucc? hx₁
  · -- Only a branch that does not nullify its delay slot can leave the region where it is taken.
    have hlikely : takenSucc? c ch.block taken likely = none → likely = false := by
      intro hnone
      cases likely with
      | true => exact absurd hnone (hpatch rfl)
      | false => rfl
    obtain ⟨k₁, d₁, book₁, hrun₁, harm₁, hbook₁⟩ := h.edgeTo hc
      (takenSucc? c ch.block taken likely) taken .branchTarget (fun _ => mem_succs_of_takenSucc?)
      fun hnone => by
        obtain rfl := hlikely hnone
        exact .taken hof hnone
    obtain ⟨k₂, d₂, book₂, hrun₂, harm₂, hbook₂⟩ := harm₁.edgeTo hc (c.succAt? ch.block notTaken)
      notTaken (untakenReason likely) hnotTaken fun hnone => .untaken hof hnone rfl
    let w₁ := Way.toward (takenSucc? c ch.block taken likely) k₁ (.goto taken .branchTarget)
    let w₂ := Way.toward (c.succAt? ch.block notTaken) k₂ (.goto notTaken (untakenReason likely))
    let weights : UInt32 × UInt32 :=
      if (takenSucc? c ch.block taken likely).isNone then (5, 95) else (95, 5)
    have hslots : (Outlet.fork cond w₁ w₂ (some weights)).slots =
        (takenSucc? c ch.block taken likely).toList ++ (c.succAt? ch.block notTaken).toList := by
      cases h₁ : takenSucc? c ch.block taken likely <;> cases h₂ : c.succAt? ch.block notTaken <;>
        simp [w₁, w₂, h₁, h₂, Outlet.slots, Outlet.ways]
    refine ⟨d₂.finish (.branch cond (w₁.id c) (w₂.id c) (some weights)), _, ?_,
      harm₂.finish (o := .fork cond w₁ w₂ (some weights)) rfl
        (fun V g out _ => leads_fork hlikely) ?_ ?_ ?_ fun _ _ h => by cases h⟩
    · rw [leave_fork_two (hc.succ_live h.fit.block) hsame]
      change (c.edgeTo _ ch.table taken .branchTarget >>= fun k₁ =>
        c.edgeTo _ ch.table notTaken (untakenReason likely) >>= fun k₂ =>
          liftM (terminate (.branch cond k₁ k₂ (some weights)))) d = _
      rw [run_bind hrun₁, run_bind hrun₂, terminate_run]
    · rw [hbook₂, hbook₁]
      exact Context.Has.mono hcond h.le
    -- The two edges differ, since a branch to one successor is the other case.
    · rw [hslots]
      cases h₁ : takenSucc? c ch.block taken likely <;> cases h₂ : c.succAt? ch.block notTaken <;> simp
      rintro rfl
      exact hsame ⟨_, h₁, h₂⟩
    · rw [hslots]
      intro y hy
      rcases List.mem_append.1 hy with hy | hy
      · exact mem_succs_of_takenSucc? (Option.mem_toList.1 hy)
      · exact hnotTaken y (Option.mem_toList.1 hy)

end Fork

/-! ## Register jumps -/

/-- Compares the target of a register jump with one address. -/
private def hitCode (target : Value) (entry : UInt32) : Emit Value := do
  let addr ← word entry
  icmp .eq target addr

/-- The comparison with one address tells whether the target is that address. -/
private theorem gives_hitCode {s : Site} {target : Value} (ht : s.Has target .i32)
    (entry : UInt32) :
    Gives s (hitCode target entry) .i1 fun V _ x =>
      ∀ pc : UInt32, V target = pc.toUInt64 → x = (pc == entry).toUInt64 := by
  refine Gives.then (gives_word entry) fun addr s₁ h₁ haddr => ?_
  refine (gives_icmp (ht.mono h₁) haddr rfl).imp fun V m x hx ha pc hpc => ?_
  rw [hx, ha, hpc]
  congr 1
  rw [Bool.eq_iff_iff]
  simp [IntCC.eval, UInt32.toUInt64_inj]

/-- What is done for one target of a register jump. -/
private def compareWith (c : Scope) (target : Value) (t : RegTable) (p : Slot × UInt32) :
    Walk Unit := do
  let hit ← (hitCode target p.2 : Emit Value)
  let next ← declareBlock "dispatch"
  Scope.noteEdge p.1 t
  terminate (.branch hit (← c.blockOf p.1) next none)
  switchTo next

/-! ### One comparison

Block `j` makes the comparison and ends with a branch, to the target or to a new block that goes on
with the other targets. -/

/-- The draft after one comparison, in which the new block takes over. -/
private def compared (c : Scope) (d : Draft) (t : RegTable) (y : Slot) (hit : Value)
    (tys : Array Ty) (code : List Inst) : Draft :=
  ((((d.emit tys code).declare "dispatch").note y t).finish
    (.branch hit (c.place y) ⟨d.size⟩ none)).goTo ⟨d.size⟩

/-- A block on the side of `ch` that goes on where that ends. -/
private def Chunk.relay (ch : Chunk) (tys : Array Ty) (e : Ending) : Chunk where
  slot := ch.slot
  block := ch.block
  role := .relay e
  enter := ch.table
  below := ch.stop.avail
  merges := []
  start := ⟨tys, ch.stop.avail⟩
  code := []
  stop := ⟨tys, ch.stop.avail⟩
  table := ch.table
  out := .goto (.edge ch.slot)

/-- A block that takes over has no code of its own yet. -/
private theorem begun_relay {k : Nat} (hfit : ch.Fit c d) (hview : d.view k = some ([], none))
    (hk : n ≤ k) (e : Ending) : Begun c n d k (ch.relay d.types e) fun V g out => e.Holds V g out where
  view := ⟨none, hview⟩
  ordered := .nil _
  types _ _ h := h
  avail _ hv := .inl hv
  merged _ _ h := by cases h
  block := hfit.block
  place := ⟨hk, rfl, rfl⟩
  typed := hfit.typed.mono ⟨hfit.types, fun _ hv => hv⟩
  full := hfit.full
  does _ _ _ _ _ hsat := ⟨hsat, fun _ _ _ he => he⟩

section Compared

variable {y : Slot} {t : RegTable} {hit target : Value} {tys : Array Ty} {code : List Inst}
  {A A' : Value → Prop} {missed : List UInt32} {entry : UInt32}

/-- A comparison makes one new block. -/
private theorem size_compared : (compared c d t y hit tys code).size = d.size + 1 := by
  simp [compared]

/-- A comparison makes one edge. -/
private theorem edges_compared : (compared c d t y hit tys code).edges.toList =
    d.edges.toList ++ [⟨y, ⟨d.cur⟩, t⟩] := by
  simp [compared]

/-- The block that takes over is empty. -/
private theorem view_compared (hcur : d.cur < d.size) :
    (compared c d t y hit tys code).view d.size = some ([], none) := by
  simp [compared, Draft.view_finish, Draft.view_declare, Nat.ne_of_gt hcur]

/-- A comparison grows the block that compares. -/
private theorem grown_compared (hcode : Ssa.Code ⟨d.types, A⟩ code ⟨tys, A'⟩)
    (hcur : d.cur = j) (hlt : j < d.size) :
    Grown (· = j) d (compared c d t y hit tys code) := by
  have hemit : Grown (· = j) d (d.emit tys code) := grown_emit hcode hcur (hcur ▸ hlt)
  have hdeclare : Grown (· = j) (d.emit tys code) ((d.emit tys code).declare "dispatch") :=
    grown_declare _
  have hnote : Grown (· = j) _ (((d.emit tys code).declare "dispatch").note y t) :=
    grown_note y t hcur (by simp [hcur]; omega)
  exact hemit.trans (hdeclare.trans (hnote.trans ((grown_finish _ hcur).trans (grown_goTo _))))

/-- The block that makes the comparison. -/
private theorem good_compared
    (h : Arming c n i ch d₀ d book j (fun V g out => (Ending.scan target missed).Holds V g out) [])
    (hbegun : Begun c n (d.emit tys code) j ((book j).grow code ⟨tys, A'⟩) fun V g out =>
      (Ending.scan target missed).Holds V g out ∧ V hit = (g.pc == entry).toUInt64)
    (hty : Context.Has ⟨tys, A'⟩ hit .i1) (hy : y ∈ ch.block.succs)
    (hhit : entry ∉ missed → c.succAt? ch.block entry = some y) :
    Good c n (compared c d ch.table y hit tys code) j
      { (book j).grow code ⟨tys, A'⟩ with
        out := .fork hit (.edge y) (.side ⟨d.size⟩ (.scan target (missed ++ [entry]))) none } := by
  have hlt := h.lt_size
  -- Declaring the next block and noting the edge leave the code of block `j` as it is.
  have hview : ((d.emit tys code).declare "dispatch").view j = (d.emit tys code).view j := by
    rw [Draft.view_declare, if_neg (by rw [Draft.size_emit]; exact Nat.ne_of_lt hlt)]
  have hnote : Grown (· = j) _ (((d.emit tys code).declare "dispatch").note y ch.table) :=
    grown_note y ch.table h.cur (by simp [h.cur]; omega)
  have hdeclare : Grown (· = j) (d.emit tys code) ((d.emit tys code).declare "dispatch") :=
    grown_declare _
  have hready := (hbegun.mono hdeclare hview).mono hnote rfl
  let o := Outlet.fork hit (.edge y) (.side ⟨d.size⟩ (.scan target (missed ++ [entry]))) none
  have hslots : o.slots = [y] := rfl
  have hgoTo : ∀ d' : Draft, Grown (fun _ => False) d' (d'.goTo ⟨d.size⟩) := fun _ => grown_goTo _
  suffices hgood : Good c n _ j { (book j).grow code ⟨tys, A'⟩ with out := o } from
    hgood.mono (hgoTo _) id
  refine hready.close (o := o) h.cur ?leads hty ?edges (by simp [hslots]) ?slots ?sides
    (.of_role h.role fun _ _ h => by cases h)
  case leads =>
    rintro V g out - ⟨⟨hpc, rfl, hmiss⟩, hval⟩
    change (if V hit &&& 1 == 1 then Way.edge y else _).Leads c _ V g _
    rw [hval, toUInt64_and_one]
    -- Either the guest goes on at `entry`, and the edge is its way, or one more target is missed.
    by_cases heq : g.pc = entry
    · rw [if_pos (beq_iff_eq.2 heq)]
      change c.next (book j).block g _ = some y
      rw [h.block, ← hhit (heq ▸ hmiss), ← heq]
      rfl
    · rw [if_neg (by simpa using heq)]
      exact ⟨hpc, rfl, by simp [hmiss, heq]⟩
  case edges =>
    have htable : ((book j).grow code ⟨tys, A'⟩).table = ch.table := h.table
    rw [Draft.edges_note, Draft.edges_declare, Draft.edges_emit, List.filter_append, h.edges, htable]
    simp [hslots, h.cur]
  case slots =>
    intro z hz
    obtain rfl : z = y := by simpa [hslots] using hz
    change z ∈ (book j).block.succs
    rw [h.block]
    exact hy
  case sides =>
    intro k e hk
    obtain ⟨rfl, -⟩ : k = ⟨d.size⟩ ∧ _ := by simpa [o, Outlet.ways] using hk
    exact hlt

end Compared

/-- The target is compared with one address, and a new block takes over. -/
private theorem Arming.relay (hc : c.Sound K n) {target : Value} {missed : List UInt32}
    (h : Arming c n i ch d₀ d book j (fun V g out => (Ending.scan target missed).Holds V g out) [])
    (ht : (Site.ofContext ch.stop).Has target .i32) (p : Slot × UInt32)
    (hp : p.1 ∈ ch.block.succs) (hhit : p.2 ∉ missed → c.succAt? ch.block p.2 = some p.1) :
    ∃ d' book', compareWith c target ch.table p d = .ok ((), d') ∧
      Arming c n i ch d₀ d' book' d.size
        (fun V g out => (Ending.scan target (missed ++ [p.2])).Holds V g out) [] := by
  obtain ⟨y, entry⟩ := p
  let e' := Ending.scan target (missed ++ [entry])
  have hlt := h.lt_size
  have hcur : d.cur < d.size := h.cur ▸ hlt
  have hnow : (book j).stop.Le ⟨d.types, (book j).stop.avail⟩ := ⟨h.begun.types, fun _ hv => hv⟩
  have hsite : (d.site (book j).stop.avail).Has target .i32 := (ht.mono h.le).mono hnow
  obtain ⟨hit, tys, code, A', hrun, hcode, hty, hsem⟩ := (gives_hitCode hsite entry).walk
  let d' := compared c d ch.table y hit tys code
  have hgrown : Grown (· = j) d d' := grown_compared hcode h.cur hlt
  have hsize : d'.size = d.size + 1 := size_compared
  have hbegun : Begun c n (d.emit tys code) j ((book j).grow code ⟨tys, A'⟩) fun V g out =>
      (Ending.scan target missed).Holds V g out ∧ V hit = (g.pc == entry).toUInt64 := by
    refine h.begun.emit h.cur hcode fun f V m m' hfits hsat => ?_
    obtain ⟨hm, hval⟩ := hsem f V m m' hfits hsat
    exact ⟨hm, fun g out _ hQ => ⟨hQ, hval g.pc hQ.1⟩⟩
  -- Block `j` asks, and the new block takes over. No other block is described anew.
  let asks : Chunk := { (book j).grow code ⟨tys, A'⟩ with
    out := .fork hit (.edge y) (.side ⟨d.size⟩ e') none }
  let next : Chunk := ch.relay tys e'
  let book' : Book := (book.set j asks).set d.size next
  have hasks : Good c n d' j asks := good_compared h hbegun hty hp hhit
  have hnext : Begun c n d' d.size next fun V g out => e'.Holds V g out :=
    begun_relay ((h.fit.mono h.grown).mono hgrown) (view_compared hcur)
      (Nat.le_trans h.room h.grown.size) e'
  have hextends : (book j).Extends asks :=
    ⟨rfl, rfl, rfl, rfl, rfl, rfl, rfl, hnow.trans hcode.le⟩
  have hbook : book.Revises d j book' := (Book.Revises.replace hextends).trans (.add _ next hlt)
  have hbook_j : book' j = asks :=
    ((book.set j asks).set_of_ne next (Nat.ne_of_lt hlt)).trans (book.set_self j asks)
  have hbook_next : book' d.size = next := Book.set_self _ _ _
  have hmine : ∀ k, Mine j d d' k → k ≠ d.size → k = j := by
    rintro k (hk | ⟨hle, hk⟩) hne
    · exact hk
    · omega
  refine ⟨d', book', ?run, { h with
    toSpread := h.update h.lt h.mine hgrown (Nat.lt_of_lt_of_eq (Nat.lt_succ_self _) hsize.symm) rfl hbook
      ?beside ?good ?points
    begun := by rw [hbook_next]; exact hnext
    cur := rfl
    mine := .inr ⟨h.grown.size, by omega⟩
    role := .inr ⟨e', by rw [hbook_next]; rfl⟩
    table := by rw [hbook_next]; rfl
    block := by rw [hbook_next]; rfl
    le := by
      rw [hbook_next]
      exact ⟨((h.fit.mono h.grown).mono hgrown).types, fun _ hv => hv⟩
    edges := ?edges
    ways := fun _ _ hk => absurd hk List.not_mem_nil }⟩
  case run =>
    unfold compareWith
    rw [run_bind hrun, run_bind (declareBlock_run "dispatch"), run_bind (noteEdge_run y ch.table),
      hc.blockOf_succ h.fit.block hp, Draft.size_emit]
    change (liftM (terminate (.branch hit (c.place y) ⟨d.size⟩ none)) >>= fun _ =>
      liftM (switchTo ⟨d.size⟩) : Walk Unit)
        (((d.emit tys code).declare "dispatch").note y ch.table) = _
    rw [run_bind (terminate_run _)]
    exact switchTo_run (by simp)
  case beside =>
    intro k hle hk
    obtain rfl : k = d.size := by omega
    rw [hbook_next]
    exact ⟨rfl, rfl, rfl, fun _ hv => hv, e', rfl, ht⟩
  case good =>
    intro k hk hne
    rw [hmine k hk hne, hbook_j]
    exact hasks
  case points =>
    intro k hk hne q e hq
    rw [hmine k hk hne, hbook_j] at hq
    obtain ⟨rfl, rfl⟩ : q = ⟨d.size⟩ ∧ e = e' := by simpa [asks, Outlet.ways] using hq
    exact ⟨h.grown.size, by change d.size < d'.size; omega, by rw [hbook_next]; rfl⟩
  case edges =>
    -- Nothing leaves the new block yet.
    refine List.filter_eq_nil_iff.2 fun e he heq => ?_
    have hsource : e.source.index = d.size := beq_iff_eq.1 heq
    rw [edges_compared] at he
    rcases List.mem_append.1 he with he | he
    · have := (h.grown.tidy h.tidy).sources e he
      omega
    · rw [List.mem_singleton.1 he] at hsource
      exact absurd hsource (Nat.ne_of_lt hcur)

/-- Sorting by address keeps the order of blocks that start at one address. -/
private theorem filter_mergeSort (l : List (Slot × UInt32)) (a : UInt32) :
    (l.mergeSort fun x y => x.2 ≤ y.2).filter (·.2 == a) = l.filter (·.2 == a) := by
  -- Targets with one address are in order as they stand, so sorting keeps them as they are.
  have hpairs : (l.filter (·.2 == a)).Pairwise fun x y => decide (x.2 ≤ y.2) = true := by
    refine List.pairwise_iff_forall_sublist.2 fun {x y} hxy => ?_
    have hx := (List.mem_filter.1 (hxy.subset List.mem_cons_self)).2
    have hy := (List.mem_filter.1 (hxy.subset (List.mem_cons_of_mem _ List.mem_cons_self))).2
    rw [beq_iff_eq] at hx hy
    rw [hx, hy]
    exact decide_eq_true (UInt32.le_refl a)
  have htrans : ∀ x y z : Slot × UInt32, decide (x.2 ≤ y.2) = true → decide (y.2 ≤ z.2) = true →
      decide (x.2 ≤ z.2) = true := by
    intro x y z hxy hyz
    simp only [decide_eq_true_eq] at *
    exact UInt32.le_trans hxy hyz
  have htotal : ∀ x y : Slot × UInt32, (decide (x.2 ≤ y.2) || decide (y.2 ≤ x.2)) = true := by
    intro x y
    simpa using UInt32.le_total x.2 y.2
  have hsub := List.sublist_mergeSort htrans htotal hpairs List.filter_sublist
  have hsub' := hsub.filter (·.2 == a)
  rw [List.filter_filter] at hsub'
  simp only [Bool.and_self] at hsub'
  refine (hsub'.eq_of_length ?_).symm
  exact ((List.mergeSort_perm l _).filter _).length_eq.symm

/-- A register jump to an address goes to the first block that starts there. -/
theorem succAt?_of_jumpTargets {b : Region.Block} {before after : List (Slot × UInt32)}
    {y : Slot} {a : UInt32} (h : c.jumpTargets b = before ++ (y, a) :: after)
    (hbefore : a ∉ before.map (·.2)) : c.succAt? b a = some y := by
  let f := fun s => (c.region.block? s).bind fun t => if t.isPatch then none else some (s, t.entry)
  -- Sorting by address keeps the order of the targets at one address.
  have hfilter : (c.jumpTargets b).filter (·.2 == a) = (b.succs.filterMap f).filter (·.2 == a) :=
    filter_mergeSort _ a
  have hfirst : ((c.jumpTargets b).filter (·.2 == a)).head? = some (y, a) := by
    have hnone : before.filter (·.2 == a) = [] := by
      refine List.filter_eq_nil_iff.2 fun p hp hpa => hbefore ?_
      exact List.mem_map.2 ⟨p, hp, beq_iff_eq.1 hpa⟩
    simp [h, hnone]
  rw [hfilter, List.head?_filter, List.find?_filterMap] at hfirst
  obtain ⟨s, hs, hf⟩ := Option.bind_eq_some_iff.1 hfirst
  -- The first target at `a` is what looking for a successor there finds.
  have hsame : (fun s => (f s).any fun p => p.2 == a) =
      fun s => (c.region.block? s).any fun t => !t.isPatch && t.entry == a := by
    funext s
    simp only [f]
    cases c.region.block? s with
    | none => rfl
    | some t => cases hp : t.isPatch <;> simp [hp]
  rw [hsame] at hs
  have hsy : s = y := by
    simp only [f] at hf
    obtain ⟨t, -, ht⟩ := Option.bind_eq_some_iff.1 hf
    split at ht
    · cases ht
    · cases ht
      rfl
  rw [← hsy]
  exact hs

/-- The target is compared with the addresses of all successors in turn. -/
private theorem Arming.dispatch (hc : c.Sound K n) {target : Value}
    (ht : (Site.ofContext ch.stop).Has target .i32) (slots before : List (Slot × UInt32))
    (hslots : c.jumpTargets ch.block = before ++ slots)
    (h : Arming c n i ch d₀ d book j
      (fun V g out => (Ending.scan target (before.map (·.2))).Holds V g out) []) :
    ∃ d' book' k, slots.forM (compareWith c target ch.table) d = .ok ((), d') ∧
      Arming c n i ch d₀ d' book' k (fun V g out => (Ending.scan target
        ((before ++ slots).map (·.2))).Holds V g out) [] := by
  -- Induction on the targets that are left. Those compared already are all missed.
  induction slots generalizing before d book j with
  | nil => exact ⟨d, book, j, rfl, by simpa using h⟩
  | cons p slots ih =>
    have hmem : p.1 ∈ ch.block.succs := by
      have hp : p ∈ c.jumpTargets ch.block := by simp [hslots]
      obtain ⟨s, hs, hf⟩ := List.mem_filterMap.1 (List.mem_mergeSort.1 hp)
      obtain ⟨t, -, ht⟩ := Option.bind_eq_some_iff.1 hf
      split at ht
      · cases ht
      · cases ht
        exact hs
    obtain ⟨d₁, book₁, hrun, harm⟩ := h.relay hc ht p hmem (succAt?_of_jumpTargets hslots)
    have harm' : Arming c n i ch d₀ d₁ book₁ d.size (fun V g out => (Ending.scan target
        ((before ++ [p]).map (·.2))).Holds V g out) [] := by
      simpa using harm
    obtain ⟨d₂, book₂, k, hrun₂, harm₂⟩ := ih (before ++ [p]) (by simp [hslots]) harm'
    refine ⟨d₂, book₂, k, ?_, by simpa using harm₂⟩
    exact (run_bind hrun).trans hrun₂

/-- Going on at the address in a register. -/
theorem leave_scan (hc : c.Sound K n) {target : Value}
    (h : Arming c n i ch d₀ d book i (fun V g out => (Ending.scan target []).Holds V g out) [])
    (ht : (Site.ofContext ch.stop).Has target .i32)
    (hof : (Ending.scan target []).Of c ch.slot ch.block) :
    ∃ d' book', c.leave ch.block (.scan target []) ch.table d = .ok ((), d') ∧
      Spread c n i ch d₀ d' book' fun _ => False := by
  obtain ⟨d₁, book₁, j, hrun₁, harm₁⟩ := h.dispatch hc ht (c.jumpTargets ch.block) [] rfl
  -- All targets are missed in the end, which is the only way out.
  let e := Ending.scan target ((c.jumpTargets ch.block).map (·.2))
  have hfinal : c.Final ch.slot ch.block e .indirectMiss :=
    .missed hof fun p hp => List.mem_map.2 ⟨p, hp, rfl⟩
  have hat : (ExitPc.held target).At e := rfl
  obtain ⟨k, d₂, side, hrun₂, harm₂⟩ := harm₁.exit hc.ready.usage hat ht hfinal
  have hslots : (Outlet.goto (.side k e)).slots = [] := rfl
  refine ⟨d₂.finish (.jump k), _, ?_, harm₂.finish (o := .goto (.side k e)) rfl ?_ trivial ?_ ?_ ?_⟩
  · have hfound : (liftM (c.dispatchTargets ch.block) : Walk (List (Slot × UInt32))) d =
        .ok (c.jumpTargets ch.block, d) := by
      rw [Scope.dispatchTargets_eq_ok (hc.succ_live h.fit.block)]
      rfl
    change ((liftM (c.dispatchTargets ch.block) : Walk (List (Slot × UInt32))) >>= fun targets =>
      targets.forM (compareWith c target ch.table) >>= fun _ =>
        c.exitBlock ch.table (.held target) .indirectMiss >>= fun k =>
          liftM (terminate (.jump k))) d = _
    rw [run_bind hfound, run_bind hrun₁, run_bind hrun₂, terminate_run]
  · exact fun V g out _ hold => hold
  · simp [hslots]
  · simp [hslots]
  · exact fun _ _ h => by cases h

/-! ## All endings -/

/-- Leaving a block in any way. -/
theorem leave_spec (hc : c.Sound K n) {e : Ending}
    (hch : Begun c n d i ch fun V g out => e.Holds V g out) (hcur : d.cur = i)
    (hrole : ch.role = .body) (htidy : d.Tidy) (hn : n ≤ d.size)
    (hedges : d.edges.toList.filter (·.source.index == i) = [])
    (he : e.Typed (.ofContext ch.stop)) (hof : e.Of c ch.slot ch.block)
    (hpatch : ch.block.endsInLikely = true → c.succ? ch.block (·.isPatch) ≠ none) :
    ∃ d' book', c.leave ch.block e ch.table d = .ok ((), d') ∧
      Spread c n i ch d d' book' fun _ => False := by
  have h := Arming.start hch hcur hrole htidy hn hedges
  cases e with
  | goto addr reason => exact leave_goto hc h hof
  | fork cond taken notTaken likely =>
    refine leave_fork hc h he hof fun hlikely => hpatch ?_
    subst hlikely
    obtain ⟨tr, htr, hctl⟩ := hof
    exact Region.Block.endsInLikely_iff.2 ⟨tr, taken, notTaken, htr, hctl⟩
  | scan target missed =>
    obtain ⟨rfl, hof'⟩ := hof
    exact leave_scan hc h he ⟨rfl, hof'⟩

end HotRegion.Lowering
