import HotRegion.Proofs.Lowering.Boundary
import HotRegion.Proofs.Lowering.Draft
import HotRegion.Proofs.Region.Ready

/-!
# The layout of a function

What each block of the function is there for. The code of a block of the region is in one block of
the function; blocks on the side compare the target of a register jump or leave the region. A
`Chunk` describes one block: its merges and its code, the table at its end and where control goes
on. `Good` says that a block of the draft is as its chunk describes it, and that its code does what
the chunk is there for.

## Key results

- `Scope.Final.next_eq`: the region is only left for addresses that no successor has
- `Begun.emit`, `Begun.close`: a block gets more code, and ends
- `exitBlock_spec`: a new exit
-/

namespace HotRegion.Lowering

open Isa Analysis Ssa Build
open Machine (State Memory)
open Region (Tracked Slot Departure)

/-! ## Ways on -/

/-- Where control goes on at the end of a block: at a block of the region, or at a block on the
side, for which `e` says where the guest is. -/
inductive Way where
  | edge (y : Slot)
  | side (k : BlockId) (e : Ending)

/-- How control leaves a block of the function. -/
inductive Outlet where
  | goto (w : Way)
  | fork (cond : Value) (ifTrue ifFalse : Way) (weights : Option (UInt32 × UInt32))
  | exit (pc : Value) (reason : ExitReason)

namespace Scope

/-- The block of the function for a block of the region. -/
def place (c : Scope) (y : Slot) : BlockId := (c.blocks.lookup y).getD Function.entry

/-- The first successor that the given property holds of. -/
def succ? (c : Scope) (b : Region.Block) (p : Region.Block → Bool) : Option Slot :=
  b.succs.find? fun s => (c.region.block? s).any p

/-- The successor that is not a patch block and starts at `addr`. -/
def succAt? (c : Scope) (b : Region.Block) (addr : UInt32) : Option Slot :=
  c.succ? b fun t => !t.isPatch && t.entry == addr

/-- The successors that are not patch blocks, by entry address. -/
def jumpTargets (c : Scope) (b : Region.Block) : List (Slot × UInt32) :=
  (b.succs.filterMap fun s =>
    (c.region.block? s).bind fun t => if t.isPatch then none else some (s, t.entry)).mergeSort
      fun x y => x.2 ≤ y.2

/-- The successor at which the guest goes on: the one it has come to, or the patch block if the delay
slot of a likely branch is still to run. -/
def next (c : Scope) (b : Region.Block) (g : State) (out : Departure) : Option Slot :=
  if out.pending then c.succ? b (·.isPatch) else c.succAt? b g.pc

/-- Control may leave the region out of a block where an ending says, for a reason: the block has an
ending that leads there, and no successor. -/
inductive Final (c : Scope) (x : Slot) (b : Region.Block) : Ending → ExitReason → Prop where
  | here {addr : UInt32} {reason : ExitReason} (of : (Ending.goto addr reason).Of c x b)
      (none : c.succAt? b addr = none) : Final c x b (.goto addr reason) reason
  | taken {cond : Value} {taken notTaken : UInt32}
      (of : (Ending.fork cond taken notTaken false).Of c x b) (none : c.succAt? b taken = none) :
      Final c x b (.goto taken .branchTarget) .branchTarget
  | untaken {cond : Value} {taken notTaken : UInt32} {likely : Bool} {reason : ExitReason}
      (of : (Ending.fork cond taken notTaken likely).Of c x b) (none : c.succAt? b notTaken = none)
      (why : reason = if likely then .likelyUntaken else .fallthrough) :
      Final c x b (.goto notTaken reason) reason
  | missed {target : Value} {missed : List UInt32} (of : (Ending.scan target []).Of c x b)
      (all : ∀ p ∈ c.jumpTargets b, p.2 ∈ missed) :
      Final c x b (.scan target missed) .indirectMiss

end Scope

variable {c : Scope} {b : Region.Block}

/-! ## Successors -/

/-- Searching a list with a test that never fails. -/
theorem findM?_eq_ok {α ε : Type} {f : α → Except ε Bool} {p : α → Bool} {l : List α}
    (h : ∀ a ∈ l, f a = .ok (p a)) : l.findM? f = .ok (l.find? p) := by
  induction l with
  | nil => rfl
  | cons a l ih =>
    obtain ⟨ha, hl⟩ := List.forall_mem_cons.1 h
    rw [List.findM?, ha, List.find?_cons]
    cases p a with
    | true => rfl
    | false => exact ih hl

/-- A search that ends found what it looks for. -/
theorem find?_of_findM? {α ε : Type} {f : α → Except ε Bool} {p : α → Bool} {l : List α}
    {r : Option α} (h : ∀ a ∈ l, ∀ x, f a = .ok x → p a = x) (hrun : l.findM? f = .ok r) :
    l.find? p = r := by
  induction l with
  | nil => exact Except.ok.inj hrun
  | cons a l ih =>
    obtain ⟨ha, hl⟩ := List.forall_mem_cons.1 h
    rw [List.findM?] at hrun
    obtain ⟨x, hx, hrun⟩ := bind_eq_ok.1 hrun
    rw [List.find?_cons, ha x hx]
    cases x with
    | true => exact Except.ok.inj hrun
    | false => exact ih hl hrun

/-- Choosing from a list with a choice that never fails. -/
theorem filterMapM_eq_ok {α β ε : Type} {f : α → Except ε (Option β)} {g : α → Option β}
    {l : List α} (h : ∀ a ∈ l, f a = .ok (g a)) : l.filterMapM f = .ok (l.filterMap g) := by
  induction l with
  | nil => rfl
  | cons a l ih =>
    obtain ⟨ha, hl⟩ := List.forall_mem_cons.1 h
    rw [List.filterMapM_cons, ha, ih hl, List.filterMap_cons]
    cases g a <;> rfl

section

variable (hlive : ∀ y ∈ b.succs, ∃ t, c.region.block? y = some t)
include hlive

/-- Where all successors are blocks of the region, looking for one does not break down. -/
theorem Scope.findSucc_eq_ok (p : Region.Block → Bool) : c.findSucc b p = .ok (c.succ? b p) := by
  refine findM?_eq_ok fun y hy => ?_
  obtain ⟨t, ht⟩ := hlive y hy
  simp only [Scope.guestBlock, Region.block_eq_ok ht, ht]
  rfl

/-- Looking for the successor at an address does not break down. -/
theorem Scope.succAt_eq_ok (addr : UInt32) : c.succAt b addr = .ok (c.succAt? b addr) :=
  Scope.findSucc_eq_ok hlive _

/-- Collecting the targets of a register jump does not break down. -/
theorem Scope.dispatchTargets_eq_ok : c.dispatchTargets b = .ok (c.jumpTargets b) := by
  unfold Scope.dispatchTargets
  rw [filterMapM_eq_ok fun y hy => ?_]
  · rfl
  · obtain ⟨t, ht⟩ := hlive y hy
    simp only [Scope.guestBlock, Region.block_eq_ok ht, ht]
    rfl

end

/-- A block that is found in the graph. -/
theorem Scope.block?_of_guestBlock {s : Slot} {t : Region.Block} (h : c.guestBlock s = .ok t) :
    c.region.block? s = some t := by
  have hblock : c.region.block s = .ok t := Ssa.mapError_eq_ok.1 h
  unfold Region.block at hblock
  split at hblock
  · cases hblock
    assumption
  · cases hblock

/-- The successor that is looked for, where that does not break down. -/
theorem Scope.succ?_of_findSucc {p : Region.Block → Bool} {r : Option Slot}
    (h : c.findSucc b p = .ok r) : c.succ? b p = r := by
  refine find?_of_findM? (fun y hy x hx => ?_) h
  obtain ⟨t, ht, ⟨⟩⟩ := bind_eq_ok.1 hx
  rw [Scope.block?_of_guestBlock ht]
  rfl

/-- A successor at an address is one of the blocks that a register jump is compared with. -/
theorem Scope.succAt?_spec {addr : UInt32} {y : Slot} (h : c.succAt? b addr = some y) :
    y ∈ b.succs ∧ (y, addr) ∈ c.jumpTargets b := by
  have hp := List.find?_some h
  have hmem := List.mem_of_find?_eq_some h
  obtain ⟨t, ht, hcond⟩ := (Option.any_eq_true _ _).1 hp
  simp only [Bool.and_eq_true, Bool.not_eq_true', beq_iff_eq] at hcond
  refine ⟨hmem, List.mem_mergeSort.2 (List.mem_filterMap.2 ⟨y, hmem, ?_⟩)⟩
  simp [ht, hcond.1, hcond.2]

/-- Where control leaves the region, the guest has come to no successor. -/
theorem Scope.Final.next_eq {e : Ending} {reason : ExitReason} {V : Value → UInt64} {g : State}
    {out : Departure} {x : Slot} (h : c.Final x b e reason) (hold : e.Holds V g out) :
    out = ⟨isTaken reason, false⟩ ∧ c.next b g out = none := by
  cases h with
  | here of none =>
    obtain ⟨rfl, rfl⟩ := hold
    exact ⟨rfl, none⟩
  | taken of none =>
    obtain ⟨rfl, rfl⟩ := hold
    exact ⟨rfl, none⟩
  | untaken of none why =>
    obtain ⟨rfl, rfl⟩ := hold
    exact ⟨rfl, none⟩
  | missed of all =>
    obtain ⟨_, rfl, hmiss⟩ := hold
    refine ⟨rfl, Option.eq_none_iff_forall_ne_some.2 fun y hy => hmiss ?_⟩
    exact all _ (Scope.succAt?_spec hy).2

namespace Way

/-- The block of the function that control goes to. -/
def id (c : Scope) : Way → BlockId
  | edge y => c.place y
  | side k _ => k

def slot? : Way → Option Slot
  | edge y => some y
  | side .. => none

/-- The way leads to where the guest goes on. -/
def Leads (c : Scope) (b : Region.Block) (V : Value → UInt64) (g : State) (out : Departure) :
    Way → Prop
  | edge y => c.next b g out = some y
  | side _ e => e.Holds V g out

end Way

namespace Outlet

def term (c : Scope) : Outlet → Terminator
  | goto w => .jump (w.id c)
  | fork cond ifTrue ifFalse weights => .branch cond (ifTrue.id c) (ifFalse.id c) weights
  | exit pc reason => .exit pc reason

def ways : Outlet → List Way
  | goto w => [w]
  | fork _ ifTrue ifFalse _ => [ifTrue, ifFalse]
  | exit .. => []

/-- The blocks of the region that edges lead to. -/
def slots (o : Outlet) : List Slot := o.ways.filterMap Way.slot?

/-- The values of an outlet may be read and have the types for them. -/
def Typed (k : Context) : Outlet → Prop
  | goto _ => True
  | fork cond .. => k.Has cond .i1
  | exit pc _ => k.Has pc .i32

/-- The outlet takes the way to where the guest goes on. -/
def Leads (c : Scope) (b : Region.Block) (V : Value → UInt64) (g : State) (out : Departure) :
    Outlet → Prop
  | goto w => w.Leads c b V g out
  | fork cond ifTrue ifFalse _ =>
    (if V cond &&& 1 == 1 then ifTrue else ifFalse).Leads c b V g out
  | exit pc _ => V pc = g.pc.toUInt64

/-- An outlet keeps its types in later code. -/
theorem Typed.mono {k k' : Context} {o : Outlet} (h : o.Typed k) (hle : k.Le k') : o.Typed k' := by
  cases o with
  | goto => trivial
  | fork => exact Context.Has.mono h hle
  | exit => exact Context.Has.mono h hle

/-- The successors of an outlet are where its edges go. -/
theorem mem_slots {o : Outlet} {y : Slot} : y ∈ o.slots ↔ .edge y ∈ o.ways := by
  simp only [slots, List.mem_filterMap]
  constructor
  · rintro ⟨w, hw, hy⟩
    cases w with
    | edge z =>
      cases hy
      exact hw
    | side => cases hy
  · exact fun h => ⟨_, h, rfl⟩

end Outlet

/-! ## Chunks -/

/-- What a block of the function is there for. -/
inductive Role where
  /-- The synthetic entry. -/
  | start
  /-- The code of a block of the region. -/
  | body
  /-- Control goes through on its way to where `e` says. -/
  | relay (e : Ending)
  /-- Control leaves the region at where `e` says. -/
  | exit (e : Ending)

/-- What is known on entry to a block on the side. -/
def Role.claim : Role → Option Ending
  | relay e | exit e => some e
  | start | body => none

/-- A merged register with its phi. -/
structure Merge where
  reg : Tracked
  dst : Value
  incoming : List (BlockId × Value) := []

namespace Merge

def inst (m : Merge) : Inst := .phi m.dst m.incoming

/-- The register with its phi, as the walk notes it. -/
def note (m : Merge) : Tracked × Value := (m.reg, m.dst)

end Merge

/-- The description of one block of the function. -/
structure Chunk where
  /-- The block of the region that it belongs to. -/
  slot : Slot
  block : Region.Block
  role : Role
  /-- The table that it starts from, and the values at hand there. -/
  enter : RegTable
  below : Value → Prop
  merges : List Merge
  start : Context
  code : List Inst
  stop : Context
  /-- The table at its end. -/
  table : RegTable
  out : Outlet

/-- What a table and the phis of a block hold is so in the state. -/
structure Starts (fp : FpTouched) (t : RegTable) (phis : Phis) (V : Value → UInt64) (g : State) :
    Prop where
  table : ∀ u : Tracked, u.home fp ∉ phis.map (·.1) → t.AgreesAt V g u
  merges : ∀ p ∈ phis, V p.2 = g.kept fp p.1

/-- A context as a site. -/
def Site.ofContext (k : Context) : Site := ⟨⟨⟨"", #[], k.types⟩, Function.entry, ∅⟩, k.avail⟩

namespace Chunk

variable (c : Scope) (ch : Chunk)

/-- The merged registers with their phis. -/
def phis : Phis := ch.merges.map Merge.note

/-- The merges have no inputs yet. -/
def Bare : Prop := ∀ mg ∈ ch.merges, mg.incoming = []

/-- The code takes the guest to a state in which `Q` holds: the code of a block of the region passes
through that block, all other code leaves the guest where it is. -/
def Does (Q : (Value → UInt64) → State → Departure → Prop) (V : Value → UInt64) (m m' : Watched) :
    Prop :=
  match ch.role with
  | .start => m' = m ∧ ∀ pc, ch.table.Agrees V (m.state.enter pc)
  | .body => ∀ safe : Memory → Prop, SafeBetween safe m m' → ∀ g : State,
    Starts c.fp ch.enter ch.phis V g → g.mem = m.state.mem → ∃ g' out,
      ch.block.Passes c.config.countInstructions safe g g' out ∧ ch.table.Agrees V g' ∧
        m'.state = { m.state with mem := g'.mem } ∧ Q V g' out
  | .relay e => m' = m ∧ ∀ g out, ch.enter.Agrees V g → e.Holds V g out → Q V g out
  | .exit e => m'.state.mem = m.state.mem ∧
    ∀ g out, ch.enter.Agrees V g → e.Holds V g out → Q V g out ∧
      WroteBack c.fp c.usage.written g m.state m'.state

/-- The chunk is in its place: only the first `n` blocks of the function are for blocks of the
region. -/
def InPlace (n i : Nat) : Prop :=
  match ch.role with
  | .start => i = 0 ∧ ch.slot = Region.entrySlot ∧ ch.merges = []
  | .body => ch.slot ≠ Region.entrySlot ∧ i = (c.place ch.slot).index ∧
    ch.phis.map (·.1) = c.region.phisAt ch.slot
  | .relay _ | .exit _ => n ≤ i ∧ ch.merges = [] ∧ ch.table = ch.enter

/-- The outlet is one for the role. -/
def Ends : Prop :=
  match ch.role with
  | .start => ∃ first, c.region.firstBlock? = some first ∧ ch.out = .goto (.edge first)
  | .body | .relay _ => ∀ pc reason, ch.out ≠ .exit pc reason
  | .exit e => ∃ pc reason, ch.out = .exit pc reason ∧ c.Final ch.slot ch.block e reason

end Chunk

/-- The table has every unit that the region needs on entry. -/
def Scope.Full (c : Scope) (t : RegTable) : Prop :=
  ∀ u : Tracked, u.home c.fp ∈ c.usage.liveIn → t.Loaded u

/-- The part of a description that is there before the block ends: the block has the code, which
leads to where `Q` says, and the table is fit for what comes after. -/
structure Begun (c : Scope) (n : Nat) (d : Draft) (i : Nat) (ch : Chunk)
    (Q : (Value → UInt64) → State → Departure → Prop) : Prop where
  view : ∃ term, d.view i = some (ch.merges.map Merge.inst ++ ch.code, term)
  ordered : Ssa.Code ch.start ch.code ch.stop
  types : ∀ (j : Nat) (ty : Ty), ch.stop.types[j]? = some ty → d.types[j]? = some ty
  avail : ∀ v, ch.start.avail v → ch.below v ∨ ∃ mg ∈ ch.merges, mg.dst = v
  merged : ∀ (k : Nat) (mg : Merge), ch.merges[k]? = some mg →
    d.types[mg.dst.index]? = some (mg.reg.ty c.fp) ∧
      d.builder.phiSites[mg.dst.index]? = some (⟨i⟩, k)
  block : c.region.block? ch.slot = some ch.block
  place : ch.InPlace c n i
  typed : ch.table.Typed (.ofContext ch.stop)
  full : c.Full ch.table
  does : ∀ f V m m', ch.stop.Fits f → Sat f V ch.code m m' → ch.Does c Q V m m'

/-- A block of the draft is as its chunk describes it. -/
structure Good (c : Scope) (n : Nat) (d : Draft) (i : Nat) (ch : Chunk) : Prop
    extends Begun c n d i ch (fun V g out => ch.out.Leads c ch.block V g out) where
  term : (d.view i).bind (·.2) = some (ch.out.term c)
  operands : ch.out.Typed ch.stop
  edges : d.edges.toList.filter (·.source.index == i) =
    ch.out.slots.map fun y => ⟨y, ⟨i⟩, ch.table⟩
  nodup : ch.out.slots.Nodup
  slots : ∀ y ∈ ch.out.slots, y ∈ ch.block.succs
  sides : ∀ k e, .side k e ∈ ch.out.ways → i < k.index
  ends : ch.Ends c

variable {n i : Nat} {d d' d₁ : Draft} {ch ch' : Chunk} {own : Nat → Prop}
  {Q Q' : (Value → UInt64) → State → Departure → Prop} {t : RegTable} {A A' : Value → Prop}

/-- A block on the side goes on where the block that it belongs to ends. -/
theorem Chunk.InPlace.of_claim {e : Ending} (h : ch.InPlace c n i)
    (hclaim : ch.role.claim = some e) : n ≤ i ∧ ch.merges = [] ∧ ch.table = ch.enter := by
  unfold Chunk.InPlace at h
  cases hrole : ch.role with
  | start | body =>
    rw [hrole] at hclaim
    cases hclaim
  | relay | exit =>
    simp only [hrole] at h
    exact h

/-- Only the blocks of the region have merges. -/
theorem Chunk.InPlace.role_eq_body (h : ch.InPlace c n i) (hne : ch.merges ≠ []) :
    ch.role = .body := by
  unfold Chunk.InPlace at h
  cases hrole : ch.role with
  | body => rfl
  | start =>
    simp only [hrole] at h
    exact absurd h.2.2 hne
  | relay | exit =>
    simp only [hrole] at h
    exact absurd h.2.1 hne

/-- A block that is begun is one of the function. -/
theorem Begun.lt_size (h : Begun c n d i ch Q) : i < d.size := by
  obtain ⟨term, hview⟩ := h.view
  exact Draft.lt_size hview

/-- Steps that do not touch a block leave it as it is. -/
theorem Begun.mono (h : Begun c n d i ch Q) (hd : Grown own d d') (hi : d'.view i = d.view i) :
    Begun c n d' i ch Q := by
  obtain ⟨term, hview⟩ := h.view
  refine ⟨⟨term, hi.trans hview⟩, h.ordered, fun j ty hj => hd.types j ty (h.types j ty hj), h.avail,
    fun k mg hk => ?_, h.block, h.place, h.typed, h.full, h.does⟩
  obtain ⟨hty, hsite⟩ := h.merged k mg hk
  exact ⟨hd.types _ _ hty, (hd.sites _ (Array.getElem?_eq_some_iff.1 hty).1).trans hsite⟩

/-- A finished block stays as it is while others grow. -/
theorem Good.mono (h : Good c n d i ch) (hd : Grown own d d') (hi : ¬ own i) : Good c n d' i ch := by
  have hview := hd.view i h.lt_size hi
  refine ⟨h.toBegun.mono hd hview, ?_, h.operands, ?_, h.nodup, h.slots, h.sides, h.ends⟩
  · rw [hview]
    exact h.term
  · rw [hd.edges_from h.lt_size hi]
    exact h.edges

/-- The code of a finished block is its merges, the code of its chunk and the end of its outlet. -/
theorem Good.view_eq (h : Good c n d i ch) :
    d.view i = some (ch.merges.map Merge.inst ++ ch.code, some (ch.out.term c)) := by
  obtain ⟨term, hview⟩ := h.view
  have hterm := h.term
  rw [hview] at hterm
  rw [hview, ← hterm]
  rfl

/-- An ending keeps its types in later code. -/
theorem Ending.Typed.mono {s s' : Site} {e : Ending} (h : e.Typed s) (hle : s.Le s') :
    e.Typed s' := by
  cases e with
  | goto => trivial
  | fork => exact Context.Has.mono h hle
  | scan => exact Context.Has.mono h hle

/-- Code that comes after and leaves the machine alone may be counted in. -/
theorem Chunk.Does.imp {V : Value → UInt64} {m m' : Watched} (h : ch.Does c Q V m m')
    (hplace : ch.InPlace c n i)
    (himp : ∀ g out, ch.table.Agrees V g → Q V g out → Q' V g out) : ch.Does c Q' V m m' := by
  unfold Chunk.Does at h ⊢
  unfold Chunk.InPlace at hplace
  cases hrole : ch.role with
  | start =>
    simp only [hrole] at h ⊢
    exact h
  | body =>
    simp only [hrole] at h ⊢
    intro safe hsafe g hg hmem
    obtain ⟨g', out, hpass, hagree, hm', hQ⟩ := h safe hsafe g hg hmem
    exact ⟨g', out, hpass, hagree, hm', himp g' out hagree hQ⟩
  | relay e =>
    simp only [hrole] at h hplace ⊢
    exact ⟨h.1, fun g out hg he => himp g out (hplace.2.2 ▸ hg) (h.2 g out hg he)⟩
  | exit e =>
    simp only [hrole] at h hplace ⊢
    refine ⟨h.1, fun g out hg he => ?_⟩
    obtain ⟨hQ, hback⟩ := h.2 g out hg he
    exact ⟨himp g out (hplace.2.2 ▸ hg) hQ, hback⟩

/-- `ch'` is `ch` with more code at its end, or with another end. -/
structure Chunk.Extends (ch ch' : Chunk) : Prop where
  slot : ch'.slot = ch.slot
  block : ch'.block = ch.block
  role : ch'.role = ch.role
  enter : ch'.enter = ch.enter
  below : ch'.below = ch.below
  merges : ch'.merges = ch.merges
  table : ch'.table = ch.table
  stop : ch.stop.Le ch'.stop

/-- A chunk extends itself. -/
theorem Chunk.Extends.refl (ch : Chunk) : ch.Extends ch :=
  ⟨rfl, rfl, rfl, rfl, rfl, rfl, rfl, .refl _⟩

/-- Extending twice is extending. -/
theorem Chunk.Extends.trans {ch'' : Chunk} (h : ch.Extends ch') (h' : ch'.Extends ch'') :
    ch.Extends ch'' :=
  ⟨h'.slot.trans h.slot, h'.block.trans h.block, h'.role.trans h.role, h'.enter.trans h.enter,
    h'.below.trans h.below, h'.merges.trans h.merges, h'.table.trans h.table, h.stop.trans h'.stop⟩

/-- How a block ends is not part of the description that is kept. -/
theorem Chunk.extends_out (ch : Chunk) (o : Outlet) : ch.Extends { ch with out := o } :=
  ⟨rfl, rfl, rfl, rfl, rfl, rfl, rfl, .refl _⟩

/-- The merges of a chunk stay. -/
theorem Chunk.Extends.phis (h : ch.Extends ch') : ch'.phis = ch.phis := by
  rw [Chunk.phis, Chunk.phis, h.merges]

/-- The chunk with more code at its end. -/
def Chunk.grow (ch : Chunk) (code : List Inst) (stop : Context) : Chunk :=
  { ch with code := ch.code ++ code, stop := stop }

/-- More code at the end of a block, which leaves the machine alone. -/
theorem Begun.emit {tys : Array Ty} {code : List Inst} (h : Begun c n d i ch Q) (hcur : d.cur = i)
    (hcode : Ssa.Code ⟨d.types, ch.stop.avail⟩ code ⟨tys, A'⟩)
    (hsem : ∀ f V m m', (⟨tys, A'⟩ : Context).Fits f → Sat f V code m m' →
      m' = m ∧ ∀ g out, ch.table.Agrees V g → Q V g out → Q' V g out) :
    Begun c n (d.emit tys code) i (ch.grow code ⟨tys, A'⟩) Q' := by
  obtain ⟨term, hview⟩ := h.view
  have hlt := h.lt_size
  have hgrown : Grown (· = i) d (d.emit tys code) := grown_emit hcode hcur (hcur ▸ hlt)
  have hnow : ch.stop.Le ⟨d.types, ch.stop.avail⟩ := ⟨h.types, fun _ hv => hv⟩
  have hle : ch.stop.Le ⟨tys, A'⟩ := hnow.trans hcode.le
  refine ⟨⟨term, ?_⟩, h.ordered.append (.grow hnow.types rfl hcode), fun j ty hj => hj, h.avail,
    fun k mg hk => ?_, h.block, h.place, h.typed.mono hle, h.full, fun f V m m' hfits hsat => ?_⟩
  · rw [Draft.view_emit, if_pos hcur.symm, hview]
    simp [Chunk.grow]
  · obtain ⟨hty, hsite⟩ := h.merged k mg hk
    exact ⟨hgrown.types _ _ hty, hsite⟩
  · obtain ⟨m₁, hsat₁, hsat₂⟩ := sat_append.1 hsat
    obtain ⟨rfl, himp⟩ := hsem f V m₁ m' hfits hsat₂
    exact (h.does f V m m' (hfits.mono hle) hsat₁).imp h.place himp

/-- A block ends. -/
theorem Begun.close {o : Outlet} (h : Begun c n d i ch Q) (hcur : d.cur = i)
    (hleads : ∀ V g out, ch.table.Agrees V g → Q V g out → o.Leads c ch.block V g out)
    (htyped : o.Typed ch.stop)
    (hedges : d.edges.toList.filter (·.source.index == i) =
      o.slots.map fun y => ⟨y, ⟨i⟩, ch.table⟩)
    (hnodup : o.slots.Nodup) (hslots : ∀ y ∈ o.slots, y ∈ ch.block.succs)
    (hsides : ∀ k e, .side k e ∈ o.ways → i < k.index) (hends : ({ ch with out := o }).Ends c) :
    Good c n (d.finish (o.term c)) i { ch with out := o } := by
  obtain ⟨term, hview⟩ := h.view
  have hview' : (d.finish (o.term c)).view i =
      some (ch.merges.map Merge.inst ++ ch.code, some (o.term c)) := by
    rw [Draft.view_finish, if_pos hcur.symm, hview]
    rfl
  refine ⟨⟨⟨_, hview'⟩, h.ordered, h.types, h.avail, h.merged, h.block, h.place, h.typed, h.full,
    fun f V m m' hfits hsat => ?_⟩, ?_, htyped, hedges, hnodup, hslots, hsides, hends⟩
  · have hdoes : ch.Does c (fun V g out => o.Leads c ch.block V g out) V m m' :=
      (h.does f V m m' hfits hsat).imp h.place (hleads V)
    exact hdoes
  · rw [hview']
    rfl

/-! ## Exits -/

/-- The code of an exit: the address at which the guest continues, and the write-back. -/
def Scope.exitCode (c : Scope) (t : RegTable) (pc : ExitPc) : Emit Value := do
  let v ← match pc with
    | .known addr => (word addr : Emit Value)
    | .held v => pure v
  c.writeBack t
  return v

/-- The exit is where the ending says. -/
def ExitPc.At : ExitPc → Ending → Prop
  | .known addr, .goto addr' _ => addr' = addr
  | .held v, .scan v' _ => v' = v
  | _, _ => False

/-- The code of an exit gives the address where the guest goes on, with all registers written back.
-/
theorem yields_exitCode {s : Site} {pc : ExitPc} {e : Ending} (ht : t.Typed s)
    (hfull : c.Full t) (hu : c.usage.Describes c.region c.config.countInstructions)
    (hat : pc.At e) (hpc : e.Typed s) :
    Yields s (c.exitCode t pc) (fun v s' => s'.Has v .i32) fun v V m m' =>
      m'.state.mem = m.state.mem ∧ ∀ g out, t.Agrees V g → e.Holds V g out →
        V v = g.pc.toUInt64 ∧ WroteBack c.fp c.usage.written g m.state m'.state := by
  have hload : ∀ u : Tracked, u.home c.fp ∈ c.usage.written → t.Loaded u := fun u hu' =>
    hfull u (hu.written _ hu')
  have hhome : ∀ reg ∈ c.usage.written, reg.home c.fp = reg ∧ reg ≠ .gpr .zero := fun reg hreg =>
    have h := hu.home reg (hu.written reg hreg)
    ⟨h.1, h.2.1⟩
  -- A known address is made before the registers are written back, a held one is there already.
  cases pc with
  | known addr =>
    cases e <;> cases hat
    refine Gives.bind (gives_word addr) fun v s₁ h₁ hv => ?_
    refine Yields.bind (yields_writeBack (ht.mono h₁) hload hhome) fun _ s₂ h₂ _ => ?_
    refine Yields.pure (hv.mono h₂) ?_
    rintro V m' m ⟨hmem, hback⟩ hval
    refine ⟨hmem, fun g out hg hpc => ⟨?_, hback g hg⟩⟩
    rw [hval, hpc.1]
  | held v =>
    cases e <;> cases hat
    change Yields s (c.writeBack t >>= fun _ => pure v) _ _
    refine Yields.bind (yields_writeBack ht hload hhome) fun _ s₂ h₂ _ => ?_
    refine Yields.pure (Context.Has.mono hpc h₂) ?_
    rintro V m' m ⟨hmem, hback⟩
    exact ⟨hmem, fun g out hg hpc => ⟨hpc.1, hback g hg⟩⟩

/-- The draft in which the exit block is begun. -/
def Draft.openExit (d : Draft) (pc : ExitPc) (reason : ExitReason) : Draft :=
  let comment := match pc with
    | .known addr => s!"{reason} to {Text.hex8 addr.toNat}"
    | .held _ => toString reason
  (({ d with exits := d.exits + 1 }.declare s!"deopt{d.exits + 1}").goTo ⟨d.size⟩).annotate
    ⟨d.size⟩ (some comment)

@[simp] theorem Draft.size_openExit (pc : ExitPc) (reason : ExitReason) :
    (d.openExit pc reason).size = d.size + 1 := by
  simp only [openExit, size_annotate, size_goTo, size_declare]
  rfl

@[simp] theorem Draft.edges_openExit (pc : ExitPc) (reason : ExitReason) :
    (d.openExit pc reason).edges = d.edges := rfl

@[simp] theorem Draft.phis_openExit (pc : ExitPc) (reason : ExitReason) :
    (d.openExit pc reason).phis = d.phis := rfl

/-- An opened exit is empty, and the other blocks are as before. -/
theorem Draft.view_openExit (pc : ExitPc) (reason : ExitReason) (j : Nat) :
    (d.openExit pc reason).view j = if j = d.size then some ([], none) else d.view j := by
  simp only [openExit, view_annotate, view_goTo]
  exact view_declare _ _ j

/-- An exit is a new block with its code and its end, after which the walk is back where it was. -/
theorem exitBlock_run (pc : ExitPc) (reason : ExitReason) :
    c.exitBlock t pc reason d = (do
      let v ← (c.exitCode t pc : Emit Value)
      terminate (.exit v reason)
      switchTo ⟨d.cur⟩
      return ⟨d.size⟩ : Walk BlockId) (d.openExit pc reason) := by
  let d₁ := ({ d with exits := d.exits + 1 } : Draft).declare s!"deopt{d.exits + 1}"
  have hlt : d.size < d₁.size := by
    rw [Draft.size_declare]
    exact Nat.lt_succ_self _
  have hrun : ∀ (text : String) (k : Unit → Walk BlockId),
      (do switchTo ⟨d.size⟩; setBlockComment ⟨d.size⟩ (some text); k () : Walk BlockId) d₁ =
        k () ((d₁.goTo ⟨d.size⟩).annotate ⟨d.size⟩ (some text)) := fun text k =>
    (run_bind (switchTo_run (k := ⟨d.size⟩) hlt)).trans
      (run_bind (setBlockComment_run (k := ⟨d.size⟩) (d := d₁.goTo ⟨d.size⟩) hlt _))
  -- An address that is known is a constant of the exit block.
  cases pc with
  | known addr =>
    simp only [Scope.exitCode, liftEmit_bind, bind_assoc]
    exact hrun _ fun _ => do
      let pc ← word addr
      c.writeBack t
      terminate (.exit pc reason)
      switchTo ⟨d.cur⟩
      return ⟨d.size⟩
  | held v =>
    simp only [Scope.exitCode, liftEmit_bind, bind_assoc]
    exact hrun _ fun _ => do
      c.writeBack t
      terminate (.exit v reason)
      switchTo ⟨d.cur⟩
      return ⟨d.size⟩

/-- Opening an exit makes a new block. -/
theorem grown_openExit (pc : ExitPc) (reason : ExitReason) :
    Grown own d (d.openExit pc reason) := by
  have hcount : Grown own d { d with exits := d.exits + 1 } :=
    ⟨Nat.le_refl _, fun _ _ _ => rfl, fun _ _ h => h, ⟨[], by simp, by simp⟩, fun _ _ => rfl,
      fun h => ⟨h.nodup, h.apart, h.bound, h.sources, h.sorted⟩⟩
  exact hcount.trans ((grown_declare _).trans ((grown_goTo _).trans (grown_annotate _ _)))

/-- What there is at the end of the code of a block: a table that is fit for the code after it. -/
structure Chunk.Fit (c : Scope) (d : Draft) (ch : Chunk) : Prop where
  types : ∀ (j : Nat) (ty : Ty), ch.stop.types[j]? = some ty → d.types[j]? = some ty
  typed : ch.table.Typed (.ofContext ch.stop)
  full : c.Full ch.table
  block : c.region.block? ch.slot = some ch.block

/-- A block that is begun fits the draft. -/
theorem Begun.fit (h : Begun c n d i ch Q) : ch.Fit c d := ⟨h.types, h.typed, h.full, h.block⟩

/-- A chunk that fits a draft fits every later one. -/
theorem Chunk.Fit.mono (h : ch.Fit c d) (hd : Grown own d d') : ch.Fit c d' :=
  ⟨fun j ty hj => hd.types j ty (h.types j ty hj), h.typed, h.full, h.block⟩

/-- `side` is on the side of `ch`: it starts from where that ends. -/
structure Chunk.Beside (ch side : Chunk) : Prop where
  slot : side.slot = ch.slot
  block : side.block = ch.block
  enter : side.enter = ch.table
  below : ∀ v, side.below v → ch.stop.avail v
  claim : ∃ e, side.role.claim = some e ∧ e.Typed (.ofContext ch.stop)

/-- A block on the side stays there when it is described further on. -/
theorem Chunk.Beside.extends {side side' : Chunk} (h : ch.Beside side) (h' : side.Extends side') :
    ch.Beside side' where
  slot := h'.slot.trans h.slot
  block := h'.block.trans h.block
  enter := h'.enter.trans h.enter
  below := by
    rw [h'.below]
    exact h.below
  claim := by
    rw [h'.role]
    exact h.claim

/-- A new exit on the side of a block. -/
theorem exitBlock_spec {pc : ExitPc} {reason : ExitReason} {e : Ending}
    (hu : c.usage.Describes c.region c.config.countInstructions) (htidy : d.Tidy)
    (hcur : d.cur < d.size) (hn : n ≤ d.size) (hch : ch.Fit c d)
    (hat : pc.At e) (he : e.Typed (.ofContext ch.stop)) (hfinal : c.Final ch.slot ch.block e reason) :
    ∃ d' side, c.exitBlock ch.table pc reason d = .ok (⟨d.size⟩, d') ∧
      Grown (fun _ => False) d d' ∧ d'.size = d.size + 1 ∧ d'.cur = d.cur ∧ d'.edges = d.edges ∧
      d'.phis = d.phis ∧ Good c n d' d.size side ∧ side.role = .exit e ∧ ch.Beside side ∧
      side.out.ways = [] := by
  let d₁ := d.openExit pc reason
  have hsize₁ : d₁.size = d.size + 1 := Draft.size_openExit pc reason
  have hcur₁ : d₁.cur = d.size := rfl
  have hle : (Site.ofContext ch.stop).Le (d₁.site ch.stop.avail) := ⟨hch.types, fun _ h => h⟩
  obtain ⟨v, tys, code, A', hrun, hcode, hv, hsem⟩ :=
    (yields_exitCode (s := d₁.site ch.stop.avail) (hch.typed.mono hle) hch.full hu hat
      (he.mono hle)).walk
  let d₂ := d₁.emit tys code
  let d₃ := d₂.finish (.exit v reason)
  let d₄ := d₃.goTo ⟨d.cur⟩
  have hsize₃ : d₃.size = d.size + 1 := by
    simp only [d₃, d₂, Draft.size_finish, Draft.size_emit, hsize₁]
  have hedges : d₄.edges = d.edges := by
    simp only [d₄, d₃, d₂, d₁, Draft.edges_goTo, Draft.edges_finish, Draft.edges_emit,
      Draft.edges_openExit]
  have hphis : d₄.phis = d.phis := by
    simp only [d₄, d₃, d₂, d₁, Draft.phis_goTo, Draft.phis_finish, Draft.phis_emit,
      Draft.phis_openExit]
  have hswitch : (liftM (switchTo ⟨d.cur⟩) : Walk Unit) d₃ = .ok ((), d₄) :=
    switchTo_run (by rw [hsize₃]; exact Nat.lt_succ_of_lt hcur)
  -- From here on only the new block changes.
  have hrest : Grown (· = d.size) d₁ d₄ := by
    have hemit : Grown (· = d.size) d₁ d₂ := grown_emit hcode rfl (by rw [hcur₁, hsize₁]; omega)
    have hfinish : Grown (· = d.size) d₂ d₃ := grown_finish (.exit v reason) rfl
    exact hemit.trans (hfinish.trans (grown_goTo _))
  have hgrown : Grown (fun _ => False) d d₄ :=
    (grown_openExit pc reason).weaken hrest fun j hj => .inr (Nat.le_of_eq hj.symm)
  have hview : d₄.view d.size = some (code, some (.exit v reason)) := by
    have h₁ : d₁.view d.size = some ([], none) := by rw [Draft.view_openExit, if_pos rfl]
    have h₂ : d₂.view d.size = some (code, none) := by
      rw [Draft.view_emit, if_pos hcur₁.symm, h₁]
      rfl
    change d₃.view d.size = _
    rw [Draft.view_finish, if_pos (show d.size = d₂.cur from hcur₁.symm), h₂]
    rfl
  have hno : ∀ e ∈ d.edges.toList, ¬ (e.source.index == d.size) = true := by
    intro e he heq
    exact Nat.ne_of_lt (htidy.sources e he) (beq_iff_eq.1 heq)
  -- The exit starts from the table at the end of the block that it is made for.
  let side : Chunk :=
    { slot := ch.slot, block := ch.block, role := .exit e, enter := ch.table
      below := ch.stop.avail, merges := [], start := ⟨d.types, ch.stop.avail⟩, code := code
      stop := ⟨tys, A'⟩, table := ch.table, out := .exit v reason }
  have hbegun : Begun c n d₄ d.size side fun V g out => side.out.Leads c side.block V g out := by
    refine ⟨⟨_, hview⟩, hcode, fun j ty hj => hj, fun w hw => .inl hw, fun k mg hk => (by cases hk),
      hch.block, ⟨hn, rfl, rfl⟩, (hch.typed.mono hle).mono hcode.le, hch.full,
      fun f V m m' hfits hsat => ?_⟩
    exact hsem f V m m' hfits hsat
  refine ⟨d₄, side, ?_, hgrown, hsize₃, Draft.cur_goTo _, hedges, hphis,
    ⟨hbegun, ?_, hv, ?_, .nil, ?_, ?_, ?_⟩, rfl, ⟨rfl, rfl, rfl, fun v hv => hv, e, rfl, he⟩, rfl⟩
  · rw [exitBlock_run, run_bind hrun, run_bind (terminate_run _), run_bind hswitch]
    rfl
  · rw [hview]
    rfl
  · exact List.filter_eq_nil_iff.2 hno
  · exact fun y hy => absurd hy List.not_mem_nil
  · exact fun k e hk => absurd hk List.not_mem_nil
  · exact ⟨v, reason, rfl, hfinal⟩

end HotRegion.Lowering
