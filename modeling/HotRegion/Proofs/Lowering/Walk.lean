import HotRegion.Proofs.Lowering.Merges

/-!
# The walk of the dominator tree

The walk makes the code of a block and then that of the blocks below it in the dominator tree. Each
block starts from the table at the end of its immediate dominator, with the values at hand there.
`Visited` describes the blocks of any part of the tree, and parts are put together by `Visited.join`.

## Key results

- `visit_spec`: the blocks below a block in the tree
-/

namespace HotRegion.Lowering

open Isa Analysis Ssa Build
open Machine (State)
open Region (Tracked Slot Departure)

variable {c : Scope} {K : UInt32 × UInt32 → Prop} {n i : Nat} {d₀ d d₁ d₂ : Draft} {ch : Chunk}
  {S S₁ S₂ : Slot → Prop} {t t₁ t₂ : RegTable} {A A₁ A₂ : Value → Prop} {book book₁ book₂ : Book}
  {x y s : Slot}

/-! ## Parts of the tree -/

namespace Scope

/-- The immediate dominator of a block. -/
def idom (c : Scope) (x : Slot) : Option Slot := c.region.flowGraph.dominatorTree.idom x

/-- The block is one of the region. -/
def Live (c : Scope) (x : Slot) : Prop := ∃ b, c.region.block? x = some b

/-- The blocks of the region that a block dominates. -/
def Below (c : Scope) (s x : Slot) : Prop := c.Live x ∧ c.region.flowGraph.Dominates s x

/-- The block of the function is for a block of the region in `S`. -/
def Places (c : Scope) (S : Slot → Prop) (k : Nat) : Prop := ∃ x, S x ∧ k = (c.place x).index

/-- The code of a block of the region is among the first blocks of the function. -/
theorem Sound.lt_of_live (hc : c.Sound K n) (hx : c.Live x) : (c.place x).index < n := by
  obtain ⟨b, hb⟩ := hx
  exact (hc.place x b hb).2

/-- Blocks of the region have code of their own. -/
theorem Sound.place_inj (hc : c.Sound K n) (hx : c.Live x) (hy : c.Live y)
    (h : (c.place x).index = (c.place y).index) : x = y := by
  obtain ⟨a, ha⟩ := hx
  obtain ⟨b, hb⟩ := hy
  exact hc.inj x y a b ha hb h

/-- All blocks of the region can be reached. -/
theorem Sound.reachable (hc : c.Sound K n) (hx : c.Live x) : c.region.flowGraph.Reachable x :=
  hc.ready.rooted.reachable x (Region.mem_nodes.2 hx)

end Scope

/-- The chunk of a block of the region. -/
def Book.body (book : Book) (c : Scope) (x : Slot) : Chunk := book (c.place x).index

/-- The chunk starts from a table and from values at hand. -/
structure Chunk.HangsOn (ch : Chunk) (t : RegTable) (A : Value → Prop) : Prop where
  enter : ch.enter = t
  below : ∀ v, ch.below v → A v

/-- The chunk starts from the end of another one. -/
def Chunk.HangsBelow (ch up : Chunk) : Prop := ch.HangsOn up.table up.stop.avail

/-- The blocks of the function for `S`, or made along with them. -/
def Covered (c : Scope) (S : Slot → Prop) (d₀ d : Draft) (k : Nat) : Prop :=
  c.Places S k ∨ d₀.size ≤ k ∧ k < d.size

/-- The code for the blocks `S` of the region is made. A block whose immediate dominator is not among
them starts from the table `t` and the values `A`. -/
structure Visited (c : Scope) (n : Nat) (S : Slot → Prop) (t : RegTable) (A : Value → Prop)
    (d₀ d : Draft) (book : Book) : Prop where
  live : ∀ x, S x → c.Live x
  grown : Grown (c.Places S) d₀ d
  good : ∀ k, Covered c S d₀ d k → Good c n d k (book k)
  points : ∀ k, Covered c S d₀ d k → ∀ q e, .side q e ∈ (book k).out.ways →
    d₀.size ≤ q.index ∧ q.index < d.size ∧ (book q.index).role.claim = some e ∧
      (book q.index).slot = (book k).slot
  role : ∀ x, S x → (book.body c x).role = .body
  sides : ∀ k, d₀.size ≤ k → k < d.size → ∃ x, S x ∧ (book.body c x).Beside (book k)
  hangs : ∀ x y, S x → S y → c.idom x = some y → (book.body c x).HangsBelow (book.body c y)
  roots : ∀ x y, S x → ¬ S y → c.idom x = some y → (book.body c x).HangsOn t A
  bare : ∀ x, S x → (book.body c x).Bare
  merged : ∀ x, S x → d.phis.lookup x = some (book.body c x).phis
  others : ∀ x, ¬ S x → d.phis.lookup x = d₀.phis.lookup x

/-- No slots are visited by doing nothing. -/
theorem Visited.empty (d : Draft) (book : Book) : Visited c n (fun _ => False) t A d d book where
  live _ h := h.elim
  grown := .refl _ d
  good k h := by
    rcases h with ⟨_, h, _⟩ | h
    · exact h.elim
    · omega
  points k h := by
    rcases h with ⟨_, h, _⟩ | h
    · exact h.elim
    · omega
  role _ h := h.elim
  sides k hle hlt := by omega
  hangs _ _ h := h.elim
  roots _ _ h := h.elim
  bare _ h := h.elim
  merged _ h := h.elim
  others _ _ := rfl

/-- A block of the function belongs to one of two parts only. -/
theorem Covered.apart (hc : c.Sound K n) (hn : n ≤ d₀.size)
    (h₁ : Visited c n S₁ t₁ A₁ d₀ d₁ book₁) (h₂ : Visited c n S₂ t₂ A₂ d₁ d₂ book₂)
    (hdisj : ∀ x, S₁ x → ¬ S₂ x) {k : Nat} (hk : Covered c S₁ d₀ d₁ k) : ¬ Covered c S₂ d₁ d₂ k := by
  have hsize := h₁.grown.size
  rintro (⟨y, hy, hyk⟩ | hk₂)
  · rcases hk with ⟨x, hx, rfl⟩ | hk₁
    · exact hdisj x hx (hc.place_inj (h₁.live x hx) (h₂.live y hy) hyk ▸ hy)
    · have := hc.lt_of_live (h₂.live y hy)
      omega
  · rcases hk with ⟨x, hx, rfl⟩ | hk₁
    · have := hc.lt_of_live (h₁.live x hx)
      omega
    · omega

/-- A block for two parts is one for the first or for the second. -/
theorem Covered.either {k : Nat} (d₁ : Draft) (hk : Covered c (fun x => S₁ x ∨ S₂ x) d₀ d₂ k) :
    Covered c S₁ d₀ d₁ k ∨ Covered c S₂ d₁ d₂ k := by
  rcases hk with ⟨x, hx | hx, rfl⟩ | hk
  · exact .inl (.inl ⟨x, hx, rfl⟩)
  · exact .inr (.inl ⟨x, hx, rfl⟩)
  · rcases Nat.lt_or_ge k d₁.size with hlt | hge
    · exact .inl (.inr ⟨hk.1, hlt⟩)
    · exact .inr (.inr ⟨hge, hk.2⟩)

/-- Two books for parts without common blocks are one book for both. -/
theorem exists_book (happart : ∀ k, Covered c S₁ d₀ d₁ k → ¬ Covered c S₂ d₁ d₂ k)
    (book₁ book₂ : Book) : ∃ book : Book, (∀ k, Covered c S₁ d₀ d₁ k → book k = book₁ k) ∧
      ∀ k, Covered c S₂ d₁ d₂ k → book k = book₂ k := by
  classical
  exact ⟨fun k => if Covered c S₂ d₁ d₂ k then book₂ k else book₁ k,
    fun k hk => if_neg (happart k hk), fun k hk => if_pos hk⟩

/-- Two parts of the tree, one after the other. -/
theorem Visited.join (hc : c.Sound K n) (hn : n ≤ d₀.size)
    (h₁ : Visited c n S₁ t₁ A₁ d₀ d₁ book₁) (h₂ : Visited c n S₂ t₂ A₂ d₁ d₂ book₂)
    (hdisj : ∀ x, S₁ x → ¬ S₂ x)
    (hcross₁ : ∀ x y, S₁ x → S₂ y → c.idom x = some y →
      (book₁.body c x).HangsBelow (book₂.body c y))
    (hcross₂ : ∀ x y, S₂ x → S₁ y → c.idom x = some y →
      (book₂.body c x).HangsBelow (book₁.body c y))
    (hroots₁ : ∀ x y, S₁ x → ¬ S₁ y → ¬ S₂ y → c.idom x = some y → (book₁.body c x).HangsOn t A)
    (hroots₂ : ∀ x y, S₂ x → ¬ S₁ y → ¬ S₂ y → c.idom x = some y → (book₂.body c x).HangsOn t A) :
    ∃ book, Visited c n (fun x => S₁ x ∨ S₂ x) t A d₀ d₂ book := by
  have hsize₁ := h₁.grown.size
  have hsize₂ := h₂.grown.size
  have happart := fun k (hk : Covered c S₁ d₀ d₁ k) => hk.apart hc hn h₁ h₂ hdisj
  obtain ⟨book, hbook₁, hbook₂⟩ := exists_book happart book₁ book₂
  have hbody₁ : ∀ x, S₁ x → book.body c x = book₁.body c x := fun x hx => hbook₁ _ (.inl ⟨x, hx, rfl⟩)
  have hbody₂ : ∀ x, S₂ x → book.body c x = book₂.body c x := fun x hx => hbook₂ _ (.inl ⟨x, hx, rfl⟩)
  refine ⟨book, {
    live := fun x hx => hx.elim (h₁.live x) (h₂.live x)
    grown := (h₁.grown.mono fun k ⟨x, hx, hk⟩ => ⟨x, .inl hx, hk⟩).trans
      (h₂.grown.mono fun k ⟨x, hx, hk⟩ => ⟨x, .inr hx, hk⟩)
    good := fun k hk => ?good, points := fun k hk q e hq => ?points, role := ?role
    sides := fun k hle hlt => ?sides, hangs := ?hangs, roots := ?roots, bare := ?bare
    merged := ?merged, others := fun x hx => ?others }⟩
  case good =>
    rcases hk.either d₁ with hk | hk
    · rw [hbook₁ k hk]
      -- What is made later is made in blocks of the second part.
      exact (h₁.good k hk).mono h₂.grown fun hk' => happart k hk (.inl hk')
    · rw [hbook₂ k hk]
      exact h₂.good k hk
  case points =>
    rcases hk.either d₁ with hk | hk
    · rw [hbook₁ k hk] at hq
      obtain ⟨hle, hlt, hclaim⟩ := h₁.points k hk q e hq
      rw [hbook₁ _ (.inr ⟨hle, hlt⟩), hbook₁ k hk]
      exact ⟨hle, by omega, hclaim⟩
    · rw [hbook₂ k hk] at hq
      obtain ⟨hle, hlt, hclaim⟩ := h₂.points k hk q e hq
      rw [hbook₂ _ (.inr ⟨hle, hlt⟩), hbook₂ k hk]
      exact ⟨by omega, hlt, hclaim⟩
  case role =>
    rintro x (hx | hx)
    · rw [hbody₁ x hx]
      exact h₁.role x hx
    · rw [hbody₂ x hx]
      exact h₂.role x hx
  case sides =>
    rcases Nat.lt_or_ge k d₁.size with hlt' | hge
    · obtain ⟨x, hx, hbeside⟩ := h₁.sides k hle hlt'
      refine ⟨x, .inl hx, ?_⟩
      rw [hbody₁ x hx, hbook₁ k (.inr ⟨hle, hlt'⟩)]
      exact hbeside
    · obtain ⟨x, hx, hbeside⟩ := h₂.sides k hge hlt
      refine ⟨x, .inr hx, ?_⟩
      rw [hbody₂ x hx, hbook₂ k (.inr ⟨hge, hlt⟩)]
      exact hbeside
  case hangs =>
    -- A block and its immediate dominator may lie in different parts, either way round.
    rintro x y (hx | hx) (hy | hy) hxy
    · rw [hbody₁ x hx, hbody₁ y hy]
      exact h₁.hangs x y hx hy hxy
    · rw [hbody₁ x hx, hbody₂ y hy]
      exact hcross₁ x y hx hy hxy
    · rw [hbody₂ x hx, hbody₁ y hy]
      exact hcross₂ x y hx hy hxy
    · rw [hbody₂ x hx, hbody₂ y hy]
      exact h₂.hangs x y hx hy hxy
  case roots =>
    rintro x y (hx | hx) hy hxy
    · rw [hbody₁ x hx]
      exact hroots₁ x y hx (fun h => hy (.inl h)) (fun h => hy (.inr h)) hxy
    · rw [hbody₂ x hx]
      exact hroots₂ x y hx (fun h => hy (.inl h)) (fun h => hy (.inr h)) hxy
  case bare =>
    rintro x (hx | hx)
    · rw [hbody₁ x hx]
      exact h₁.bare x hx
    · rw [hbody₂ x hx]
      exact h₂.bare x hx
  case merged =>
    rintro x (hx | hx)
    · rw [h₂.others x (hdisj x hx), hbody₁ x hx]
      exact h₁.merged x hx
    · rw [hbody₂ x hx]
      exact h₂.merged x hx
  case others =>
    rw [h₂.others x fun h => hx (.inr h), h₁.others x fun h => hx (.inl h)]

/-- Steps before the part that only change a block of it. -/
theorem Visited.prepend (h : Visited c n S t A d₁ d book) (hs : S s)
    (hgrown : Grown (· = (c.place s).index) d₀ d₁) (hsize : d₁.size = d₀.size)
    (hphis : ∀ x, x ≠ s → d₁.phis.lookup x = d₀.phis.lookup x) : Visited c n S t A d₀ d book := by
  have hcovered : ∀ k, Covered c S d₀ d k ↔ Covered c S d₁ d k := by
    simp [Covered, hsize]
  exact { h with
    grown := (hgrown.mono fun k hk => ⟨s, hs, hk⟩).trans h.grown
    good := fun k hk => h.good k ((hcovered k).1 hk)
    points := fun k hk => by
      rw [← hsize]
      exact h.points k ((hcovered k).1 hk)
    sides := by
      rw [← hsize]
      exact h.sides
    others := fun x hx => by
      rw [h.others x hx, hphis x]
      rintro rfl
      exact hx hs }

/-- Steps after the part that only move the current block. -/
theorem Visited.append {own : Nat → Prop} (h : Visited c n S t A d₀ d book) (hown : ∀ k, ¬ own k)
    (hgrown : Grown own d d₁) (hsize : d₁.size = d.size) (hphis : d₁.phis = d.phis) :
    Visited c n S t A d₀ d₁ book := by
  have hcovered : ∀ k, Covered c S d₀ d₁ k ↔ Covered c S d₀ d k := by
    simp [Covered, hsize]
  exact { h with
    grown := h.grown.trans (hgrown.mono fun k hk => (hown k hk).elim)
    good := fun k hk => (h.good k ((hcovered k).1 hk)).mono hgrown (hown k)
    points := fun k hk => by
      rw [hsize]
      exact h.points k ((hcovered k).1 hk)
    sides := by
      rw [hsize]
      exact h.sides
    merged := by
      rw [hphis]
      exact h.merged
    others := by
      rw [hphis]
      exact h.others }

/-- Visiting the same slots under another description. -/
theorem Visited.congr (h : Visited c n S₁ t A d₀ d book) (hS : ∀ x, S₁ x ↔ S₂ x) :
    Visited c n S₂ t A d₀ d book := by
  have heq : S₁ = S₂ := funext fun x => propext (hS x)
  exact heq ▸ h

/-- A block that is left is a part of the tree. -/
theorem Spread.visited (h : Spread c n i ch d₀ d book fun _ => False)
    (hi : i = (c.place s).index) (hlive : c.Live s) (hrole : ch.role = .body)
    (hidom : c.idom s ≠ some s) (hbare : ch.Bare) (hphis : d₀.phis.lookup s = some ch.phis) :
    Visited c n (· = s) ch.enter ch.below d₀ d book := by
  -- The blocks made for `s` are its own and those on its side.
  have hmine : ∀ k, Covered c (· = s) d₀ d k → Mine i d₀ d k := by
    rintro k (⟨x, rfl, hk⟩ | hk)
    · exact .inl (hk.trans hi.symm)
    · exact .inr hk
  have hbody : book.body c s = book i := by rw [Book.body, hi]
  exact {
    live := by
      rintro x rfl
      exact hlive
    grown := h.grown.mono fun k hk => ⟨s, rfl, hk.trans hi⟩
    good := fun k hk => h.good k (hmine k hk) id
    points := fun k hk q e hq => by
      obtain ⟨hle, hlt, hclaim⟩ := h.points k (hmine k hk) id q e hq
      refine ⟨hle, hlt, hclaim, (h.beside _ hle hlt).slot.trans ?_⟩
      rcases hmine k hk with rfl | ⟨hle', hlt'⟩
      · exact h.main.slot.symm
      · exact (h.beside k hle' hlt').slot.symm
    role := by
      rintro x rfl
      rw [hbody, h.main.role, hrole]
    sides := fun k hle hlt => by
      refine ⟨s, rfl, ?_⟩
      obtain ⟨hslot, hblock, henter, hbelow, hclaim⟩ := h.beside k hle hlt
      rw [hbody]
      exact ⟨hslot.trans h.main.slot.symm, hblock.trans h.main.block.symm,
        henter.trans h.main.table.symm, fun v hv => h.main.stop.avail v (hbelow v hv),
        hclaim.imp fun e he => ⟨he.1, he.2.mono h.main.stop⟩⟩
    hangs := by
      rintro x y rfl rfl hxy
      exact absurd hxy hidom
    roots := by
      rintro x y rfl - -
      rw [hbody]
      exact ⟨h.main.enter, fun v hv => by rw [h.main.below] at hv; exact hv⟩
    bare := by
      rintro x rfl
      rw [hbody, Chunk.Bare, h.main.merges]
      exact hbare
    merged := by
      rintro x rfl
      rw [h.phis, hbody, h.main.phis]
      exact hphis
    others := fun x _ => by rw [h.phis] }

/-! ## Blocks not visited yet -/

/-- The blocks for `S` are still empty. -/
def Fresh (c : Scope) (d : Draft) (S : Slot → Prop) : Prop :=
  ∀ x, S x → d.view (c.place x).index = some ([], none) ∧
    d.edges.toList.filter (·.source.index == (c.place x).index) = []

/-- Blocks stay empty while others grow. -/
theorem Fresh.mono {own : Nat → Prop} (h : Fresh c d S) (hd : Grown own d d₁)
    (hown : ∀ x, S x → ¬ own (c.place x).index) : Fresh c d₁ S := by
  intro x hx
  obtain ⟨hview, hedges⟩ := h x hx
  have hlt := Draft.lt_size hview
  rw [hd.view _ hlt (hown x hx), hd.edges_from hlt (hown x hx)]
  exact ⟨hview, hedges⟩

/-- Fewer slots are fresh if all are. -/
theorem Fresh.sub (h : Fresh c d S₁) (hS : ∀ x, S₂ x → S₁ x) : Fresh c d S₂ := fun x hx =>
  h x (hS x hx)

/-! ## The tree below a block -/

namespace Scope

/-- The graph of the region is well formed. -/
theorem Sound.wellFormed (hc : c.Sound K n) : c.region.flowGraph.WellFormed :=
  hc.ready.rooted.toWellFormed

/-- A block right below another one is dominated by it. -/
theorem Sound.below_of_idom (hc : c.Sound K n) (hx : c.Live x) (h : c.idom x = some y) :
    c.region.flowGraph.StrictlyDominates y x :=
  (Flow.Graph.idom_spec hc.wellFormed (hc.reachable hx) h).1

/-- No block is its own immediate dominator. -/
theorem Sound.idom_ne_self (hc : c.Sound K n) (hx : c.Live x) : c.idom x ≠ some x := fun h =>
  (hc.below_of_idom hx h).2 rfl

/-- The children of a block are the blocks with it for immediate dominator. -/
theorem Sound.mem_children (hc : c.Sound K n) {a : Slot} :
    a ∈ c.children s ↔ c.Live a ∧ c.idom a = some s := by
  simp only [children, hc.ready.tree, Flow.DominatorTree.mem_children, Region.mem_nodes]
  rfl

/-- The blocks below a block are the block itself and those below its children. -/
theorem Sound.below_iff (hc : c.Sound K n) (hs : c.Live s) (x : Slot) :
    c.Below s x ↔ x = s ∨ ∃ a ∈ c.children s, c.Below a x := by
  constructor
  · rintro ⟨hx, hdom⟩
    by_cases hxs : x = s
    · exact .inl hxs
    · obtain ⟨a, ha, hax⟩ :=
        Flow.Graph.exists_child hc.wellFormed (hc.reachable hx) ⟨hdom, Ne.symm hxs⟩
      have hlive : c.Live a :=
        Region.mem_nodes.1 ((hax.reachable (hc.reachable hx)).mem_nodes hc.wellFormed)
      exact .inr ⟨a, hc.mem_children.2 ⟨hlive, ha⟩, hx, hax⟩
  · rintro (rfl | ⟨a, ha, hx, hax⟩)
    · exact ⟨hs, .refl _ _⟩
    · obtain ⟨hlive, hidom⟩ := hc.mem_children.1 ha
      exact ⟨hx, (hc.below_of_idom hlive hidom).1.trans hax⟩

/-- Siblings have no block below them in common. -/
theorem Sound.eq_of_below (hc : c.Sound K n) {a b : Slot} (ha : c.idom a = some s)
    (hb : c.idom b = some s) (hax : c.Below a x) (hbx : c.Below b x) : a = b :=
  Flow.Graph.eq_of_idom_eq hc.wellFormed (hc.reachable hax.1) ha hb hax.2 hbx.2

/-- What is right below a block is below what that is below. -/
theorem Sound.below_trans (hc : c.Sound K n) {a : Slot} (hx : c.Live x) (h : c.idom x = some y)
    (hay : c.Below a y) : c.Below a x := ⟨hx, hay.2.trans (hc.below_of_idom hx h).1⟩

end Scope

/-- The blocks below the children of a block. -/
def Scope.Under (c : Scope) (s x : Slot) : Prop := ∃ a ∈ c.children s, c.Below a x

/-- A block is not below itself. -/
theorem Scope.Sound.ne_of_under (hc : c.Sound K n) (hx : c.Under s x) : x ≠ s := by
  obtain ⟨a, ha, hx⟩ := hx
  rintro rfl
  obtain ⟨halive, haidom⟩ := hc.mem_children.1 ha
  have hdom := hc.below_of_idom halive haidom
  exact hdom.2 (hdom.1.antisymm hx.2 (hc.reachable halive))

/-- The immediate dominator of a block under `s` is under it too, unless it is `s`. -/
theorem Scope.Sound.eq_of_idom_under (hc : c.Sound K n) (hx : c.Under s x)
    (hxy : c.idom x = some y) (hy : ¬ c.Under s y) : y = s := by
  obtain ⟨a, ha, hax⟩ := hx
  obtain ⟨-, haidom⟩ := hc.mem_children.1 ha
  by_cases hxa : a = x
  · rw [← hxa, haidom] at hxy
    exact (Option.some.inj hxy).symm
  · obtain ⟨hyx, hdeepest⟩ := Flow.Graph.idom_spec hc.wellFormed (hc.reachable hax.1) hxy
    have hlive : c.Live y :=
      Region.mem_nodes.1 ((hyx.1.reachable (hc.reachable hax.1)).mem_nodes hc.wellFormed)
    exact absurd ⟨a, ha, hlive, hdeepest a ⟨hax.2, hxa⟩⟩ hy

/-- Nothing under a block is its immediate dominator. -/
theorem Scope.Sound.idom_not_under (hc : c.Sound K n) (hs : c.Live s) (h : c.idom s = some y) :
    ¬ c.Under s y := by
  intro hy
  have hne := hc.ne_of_under hy
  have hsy : c.Below s y := (hc.below_iff hs y).2 (.inr hy)
  have hys := hc.below_of_idom hs h
  exact hne (hys.1.antisymm hsy.2 (hc.reachable hs))

/-- A block and then the blocks under it. -/
theorem Visited.join_under (hc : c.Sound K n) (hn : n ≤ d₀.size) (hs : c.Live s)
    (h₁ : Visited c n (· = s) t A d₀ d₁ book₁) (h₂ : Visited c n (c.Under s) t₂ A₂ d₁ d₂ book₂)
    (htable : (book₁.body c s).table = t₂) (havail : ∀ v, A₂ v → (book₁.body c s).stop.avail v) :
    ∃ book, Visited c n (c.Below s) t A d₀ d₂ book := by
  obtain ⟨book, h⟩ := h₁.join (t := t) (A := A) hc hn h₂
    (fun x hx hu => hc.ne_of_under hu hx)
    (fun x y hx hy hxy => absurd hy (hc.idom_not_under hs (hx ▸ hxy)))
    (fun x y hx hy hxy => by
      subst hy
      obtain ⟨henter, hbelow⟩ := h₂.roots x y hx (fun hu => hc.ne_of_under hu rfl) hxy
      exact ⟨henter.trans htable.symm, fun v hv => havail v (hbelow v hv)⟩)
    (fun x y hx hy _ hxy => h₁.roots x y hx hy hxy)
    (fun x y hx hy hy' hxy => absurd (hc.eq_of_idom_under hx hxy hy') hy)
  exact ⟨book, h.congr fun x => (hc.below_iff hs x).symm⟩

/-- The blocks under a block, and then the block itself. -/
theorem Visited.join_over (hc : c.Sound K n) (hn : n ≤ d₀.size) (hs : c.Live s)
    (h₁ : Visited c n (c.Under s) t₁ A₁ d₀ d₁ book₁) (h₂ : Visited c n (· = s) t A d₁ d₂ book₂)
    (htable : (book₂.body c s).table = t₁) (havail : ∀ v, A₁ v → (book₂.body c s).stop.avail v) :
    ∃ book, Visited c n (c.Below s) t A d₀ d₂ book := by
  obtain ⟨book, h⟩ := h₁.join (t := t) (A := A) hc hn h₂
    (fun x hu hx => hc.ne_of_under hu hx)
    (fun x y hx hy hxy => by
      subst hy
      obtain ⟨henter, hbelow⟩ := h₁.roots x y hx (fun hu => hc.ne_of_under hu rfl) hxy
      exact ⟨henter.trans htable.symm, fun v hv => havail v (hbelow v hv)⟩)
    (fun x y hx hy hxy => absurd hy (hc.idom_not_under hs (hx ▸ hxy)))
    (fun x y hx hy hy' hxy => absurd (hc.eq_of_idom_under hx hxy hy) hy')
    (fun x y hx _ hy hxy => h₂.roots x y hx hy hxy)
  exact ⟨book, h.congr fun x => or_comm.trans (hc.below_iff hs x).symm⟩

/-! ## The walk -/

/-- What the walk of the tree below a block does, wherever it starts. -/
def Visits (c : Scope) (n fuel : Nat) (s : Slot) (t : RegTable) (A : Value → Prop) : Prop :=
  ∀ d : Draft, d.Tidy → n ≤ d.size → t.Typed (d.site A) → Fresh c d (c.Below s) →
    ∃ d' book, c.visit fuel s t d = .ok ((), d') ∧ Visited c n (c.Below s) t A d d' book

/-- The walk of the trees below siblings. -/
theorem visitAll_spec (hc : c.Sound K n) {fuel : Nat} (any : Book) (l : List Slot)
    (hnodup : l.Nodup) (hl : ∀ a ∈ l, c.Live a ∧ c.idom a = some s)
    (hvisit : ∀ a ∈ l, Visits c n fuel a t A) (htidy : d.Tidy) (hn : n ≤ d.size) (ht : t.Typed (d.site A))
    (hfresh : Fresh c d fun x => ∃ a ∈ l, c.Below a x) :
    ∃ d' book, l.forM (fun a => c.visit fuel a t) d = .ok ((), d') ∧
      Visited c n (fun x => ∃ a ∈ l, c.Below a x) t A d d' book := by
  induction l generalizing d with
  | nil =>
    exact ⟨d, any, rfl, (Visited.empty d any).congr fun x => by simp⟩
  | cons a l ih =>
    obtain ⟨ha, hl⟩ := List.forall_mem_cons.1 hl
    obtain ⟨hnot, hnodup⟩ := List.nodup_cons.1 hnodup
    obtain ⟨hva, hvl⟩ := List.forall_mem_cons.1 hvisit
    obtain ⟨d₁, book₁, hrun₁, h₁⟩ := hva d htidy hn ht
      (hfresh.sub fun x hx => ⟨a, List.mem_cons_self, hx⟩)
    -- The subtrees of two children have no block in common.
    have hdisj : ∀ x, c.Below a x → ¬ ∃ b ∈ l, c.Below b x := by
      rintro x hx ⟨b, hb, hbx⟩
      exact hnot (hc.eq_of_below ha.2 (hl b hb).2 hx hbx ▸ hb)
    -- So those of the other children are fresh after the first one.
    have hfresh₁ : Fresh c d₁ fun x => ∃ b ∈ l, c.Below b x := by
      refine (hfresh.sub fun x ⟨b, hb, hx⟩ => ⟨b, List.mem_cons_of_mem _ hb, hx⟩).mono h₁.grown ?_
      rintro x ⟨b, hb, hbx⟩ ⟨y, hy, hxy⟩
      obtain rfl := hc.place_inj hbx.1 hy.1 hxy
      exact hdisj x hy ⟨b, hb, hbx⟩
    have hle : (d.site A).Le (d₁.site A) := ⟨h₁.grown.types, fun _ hv => hv⟩
    obtain ⟨d₂, book₂, hrun₂, h₂⟩ := ih hnodup hl hvl (h₁.grown.tidy htidy)
      (Nat.le_trans hn h₁.grown.size) (ht.mono hle) hfresh₁
    obtain ⟨book, h⟩ := h₁.join (t := t) (A := A) hc hn h₂ hdisj
      (fun x y hx ⟨b, hb, hby⟩ hxy =>
        absurd ⟨b, hb, hc.below_trans hx.1 hxy hby⟩ (hdisj x hx))
      (fun x y ⟨b, hb, hbx⟩ hy hxy =>
        absurd ⟨b, hb, hbx⟩ (hdisj x (hc.below_trans hbx.1 hxy hy)))
      (fun x y hx hy _ hxy => h₁.roots x y hx hy hxy)
      (fun x y hx _ hy hxy => h₂.roots x y hx hy hxy)
    refine ⟨d₂, book, (run_bind hrun₁).trans hrun₂, h.congr fun x => ?_⟩
    simp

/-- The block that a likely branch goes on at is there. -/
theorem Scope.Sound.patched (hc : c.Sound K n) {b : Region.Block} (hs : s ≠ Region.entrySlot)
    (hb : c.region.block? s = some b) (hlikely : b.endsInLikely = true) :
    c.succ? b (·.isPatch) ≠ none := by
  have hnone : b.patchTarget = none := by
    rcases hc.ready.block s b hs hb with hguest | ⟨a, tr, taken, notTaken, w, -, hpatch⟩
    · exact hguest.not_patch
    · obtain ⟨tr', _, _, htr, _⟩ := Region.Block.endsInLikely_iff.1 hlikely
      rw [hpatch.transfer_eq_none] at htr
      cases htr
  obtain ⟨p, b', tr, taken, notTaken, w, hp, hb', hpatch⟩ := hc.ready.patched s b hs hb hnone hlikely
  rw [Region.succs_of_block hb] at hp
  intro hfind
  have := List.find?_eq_none.1 hfind p hp
  simp [hb', Region.Block.isPatch, hpatch.target] at this

/-- A block without a transfer goes on at its fallthrough. -/
private theorem eq_onward {e : Ending} {b : Region.Block} (hof : e.Of c s b)
    (htr : b.endsInTransfer = false) : e = Scope.onward b := by
  have hnone : b.transfer = none := by
    simpa [Region.Block.endsInTransfer] using htr
  cases e with
  | goto addr reason =>
    rcases hof with ⟨-, heq⟩ | ⟨tr, htr', -⟩
    · exact heq
    · simp [hnone] at htr'
  | fork =>
    obtain ⟨tr, htr', -⟩ := hof
    simp [hnone] at htr'
  | scan =>
    obtain ⟨-, tr, htr', -⟩ := hof
    simp [hnone] at htr'

/-- The steps of the code of a block other than the synthetic entry. -/
private theorem lowerBlock_run (hc : c.Sound K n) {b : Region.Block}
    (hb : c.region.block? s = some b) (hn : n ≤ d.size) :
    c.lowerBlock s b t d = (do
      let p ← (do
        let t ← c.addPhis s b t
        (c.bodyCode b t : Emit (RegTable × Ending)) : Walk (RegTable × Ending))
      if b.endsInTransfer then c.leave b p.2 p.1
      return p.1 : Walk RegTable) (d.annotate (c.place s)
        (some s!"guest {Text.hex8 b.entry.toNat}..{Text.hex8 b.exitAddr.toNat}")) := by
  obtain ⟨hplace, hlt⟩ := hc.place s b hb
  have hblock : (liftM (c.blockOf s) : Walk BlockId) d = .ok (c.place s, d) := by
    rw [hplace]
    rfl
  rw [lowerBlock_eq]
  have hcomment := setBlockComment_run (d := d) (Nat.lt_of_lt_of_le hlt hn)
    (some s!"guest {Text.hex8 b.entry.toNat}..{Text.hex8 b.exitAddr.toNat}")
  refine (run_bind hblock).trans ((run_bind hcomment).trans ?_)
  simp only [bind_assoc]

/-- The steps of the walk at a block other than the synthetic entry. -/
private theorem visit_eq (hc : c.Sound K n) {fuel : Nat} {b : Region.Block}
    (hs : s ≠ Region.entrySlot) (hb : c.region.block? s = some b) (hn : n ≤ d.size) :
    c.visit (fuel + 1) s t d = (do
      let p ← (do
        let t ← c.addPhis s b t
        (c.bodyCode b t : Emit (RegTable × Ending)) : Walk (RegTable × Ending))
      if b.endsInTransfer then c.leave b p.2 p.1
      let tail := (← get).builder.current
      (c.children s).forM fun a => c.visit fuel a p.1
      switchTo tail
      c.lowerFallthrough b p.1 : Walk Unit) ((d.goTo (c.place s)).annotate (c.place s)
        (some s!"guest {Text.hex8 b.entry.toNat}..{Text.hex8 b.exitAddr.toNat}")) := by
  obtain ⟨hplace, hlt⟩ := hc.place s b hb
  have hguest : (liftM (c.guestBlock s) : Walk Region.Block) d = .ok (b, d) := by
    simp only [Scope.guestBlock, Region.block, hb]
    rfl
  have hblock : (liftM (c.blockOf s) : Walk BlockId) d = .ok (c.place s, d) := by
    rw [hplace]
    rfl
  rw [Scope.visit]
  refine (run_bind hguest).trans ((run_bind hblock).trans ?_)
  refine (run_bind (switchTo_run (Nat.lt_of_lt_of_le hlt hn))).trans ?_
  simp only [hc.mark s b hs hb, Bool.false_eq_true, if_false, Bool.not_false, if_true]
  refine (run_bind_congr (lowerBlock_run (d := d.goTo (c.place s)) hc hb hn) _).trans ?_
  cases b.endsInTransfer <;>
    simp only [Bool.false_eq_true, if_false, if_true, bind_assoc, pure_bind]

/-- The walk of the blocks under a block, wherever their table comes from. -/
theorem under_spec (hc : c.Sound K n) {fuel : Nat} (any : Book)
    (hvisit : ∀ a ∈ c.children s, Visits c n fuel a t A) (htidy : d.Tidy) (hn : n ≤ d.size)
    (ht : t.Typed (d.site A)) (hfresh : Fresh c d (c.Under s)) :
    ∃ d' book, (c.children s).forM (fun a => c.visit fuel a t) d = .ok ((), d') ∧
      Visited c n (c.Under s) t A d d' book := by
  have hnodup : (c.children s).Nodup := by
    simp only [Scope.children, hc.ready.tree]
    exact Flow.DominatorTree.nodup_children hc.wellFormed s
  exact visitAll_spec hc any (c.children s) hnodup (fun a ha => hc.mem_children.1 ha) hvisit htidy hn
    ht hfresh

/-- The draft at the start of the code for a block. -/
def Draft.opened (d : Draft) (c : Scope) (s : Slot) (b : Region.Block) : Draft :=
  (d.goTo (c.place s)).annotate (c.place s)
    (some s!"guest {Text.hex8 b.entry.toNat}..{Text.hex8 b.exitAddr.toNat}")

/-- The code of the block `s` is made, and the draft stands at the end of its chunk. From there the
block goes on as `e` says. -/
private structure Coded (c : Scope) (n : Nat) (s : Slot) (b : Region.Block) (d d₁ : Draft)
    (ch : Chunk) (e : Ending) : Prop where
  run : (do
      let t ← c.addPhis s b ch.enter
      (c.bodyCode b t : Emit (RegTable × Ending)) : Walk (RegTable × Ending)) (d.opened c s b) =
        .ok ((ch.table, e), d₁)
  grown : Grown (· = (c.place s).index) d d₁
  cur : d₁.cur = (c.place s).index
  size : d₁.size = d.size
  edges : d₁.edges.toList.filter (·.source.index == (c.place s).index) = []
  lookup : ∀ x, d₁.phis.lookup x = if x = s then some ch.phis else d.phis.lookup x
  begun : Begun c n d₁ (c.place s).index ch fun V g out => e.Holds V g out
  role : ch.role = .body
  slot : ch.slot = s
  block : ch.block = b
  bare : ch.Bare
  typed : e.Typed (.ofContext ch.stop)
  ending : e.Of c s b

/-- The merges and the code of a block that is empty yet. -/
private theorem exists_coded (hc : c.Sound K n) {b : Region.Block} (hs : s ≠ Region.entrySlot)
    (hb : c.region.block? s = some b) (htidy : d.Tidy) (ht : t.Typed (d.site A))
    (hfresh : Fresh c d (· = s)) (hfull : c.Full t) (hhands : c.Hands s t) :
    ∃ d₁ ch e, Coded c n s b d d₁ ch e ∧ ch.enter = t ∧ ch.below = A := by
  obtain ⟨hview, hedges⟩ := hfresh s rfl
  -- Going to the block and giving it its comment touch no code.
  have hopened : Grown (· = (c.place s).index) d (d.opened c s b) :=
    (grown_goTo _).trans (grown_annotate _ _)
  obtain ⟨d₁, ch, e, hrun, hgrown, hcur, hsize, hedges₁, hphis, hbegun, hrole, hslot, hblock, rfl,
    rfl, hbare, htyped, hof⟩ := lowerBody_spec (d := d.opened c s b) (A := A) hc hs hb rfl rfl
      (by rw [Draft.opened, Draft.view_annotate]; exact hview) (ht.mono (Context.Le.refl _)) hfull
      hhands
  refine ⟨d₁, ch, e, ?_, rfl, rfl⟩
  exact {
    run := hrun
    grown := hopened.trans hgrown
    cur := hcur
    size := hsize.trans (by simp [Draft.opened])
    edges := by
      rw [hedges₁]
      exact hedges
    lookup x := by
      rw [hphis]
      exact Ascending.lookup_put (fun _ _ h => h) htidy.sorted s ch.phis x
    begun := hbegun
    role := hrole
    slot := hslot
    block := hblock
    bare := hbare
    typed := htyped
    ending := hof }

namespace Coded

variable {b : Region.Block} {e : Ending} {fuel : Nat}

/-- What the children of the block start from is what its code leaves. -/
private theorem lowerBlock_eq_ok (h : Coded c n s b d d₁ ch e) (hc : c.Sound K n)
    (hb : c.region.block? s = some b) (hn : n ≤ d.size)
    (hleave : (if b.endsInTransfer then c.leave b e ch.table else pure ()) d₁ = .ok ((), d₂)) :
    c.lowerBlock s b ch.enter (d.goTo (c.place s)) = .ok (ch.table, d₂) := by
  refine (lowerBlock_run (d := d.goTo (c.place s)) hc hb hn).trans ((run_bind h.run).trans ?_)
  revert hleave
  cases b.endsInTransfer with
  | true => exact fun hleave => run_bind hleave
  | false =>
    intro hleave
    cases hleave
    rfl

/-- The blocks under it are empty still. -/
private theorem fresh_under (h : Coded c n s b d d₁ ch e) (hc : c.Sound K n) (hlive : c.Live s)
    (hfresh : Fresh c d (c.Below s)) (hg : Grown (· = (c.place s).index) d₁ d₂) :
    Fresh c d₂ (c.Under s) := by
  refine (hfresh.sub fun x hx => (hc.below_iff hlive x).2 (.inr hx)).mono (h.grown.trans hg) ?_
  rintro x ⟨a, ha, hx⟩ hplace
  exact hc.ne_of_under ⟨a, ha, hx⟩ (hc.place_inj hx.1 hlive hplace)

/-- The walk of the blocks under it, from any later draft with its code. -/
private theorem under (h : Coded c n s b d d₁ ch e) (hc : c.Sound K n) (hlive : c.Live s)
    (htidy : d.Tidy) (hn : n ≤ d.size) (hfresh : Fresh c d (c.Below s))
    (hkids : ∀ a ∈ c.children s, Visits c n fuel a ch.table ch.stop.avail)
    (hg : Grown (· = (c.place s).index) d₁ d₂) :
    ∃ d' book, (c.children s).forM (fun a => c.visit fuel a ch.table) d₂ = .ok ((), d') ∧
      Visited c n (c.Under s) ch.table ch.stop.avail d₂ d' book := by
  have hall := h.grown.trans hg
  have htyped : ch.table.Typed (d₂.site ch.stop.avail) := h.begun.typed.mono
    ⟨fun j ty hj => hg.types j ty (h.begun.types j ty hj), fun _ hv => hv⟩
  exact under_spec hc (fun _ => ch) hkids (hall.tidy htidy) (Nat.le_trans hn hall.size) htyped
    (h.fresh_under hc hlive hfresh hg)

/-- A block that ends in a likely branch has a patch block among its successors. -/
private theorem patched (h : Coded c n s b d d₁ ch e) (hc : c.Sound K n)
    (hs : s ≠ Region.entrySlot) (hb : c.region.block? s = some b)
    (hlikely : ch.block.endsInLikely = true) : c.succ? ch.block (·.isPatch) ≠ none := by
  rw [h.block] at hlikely ⊢
  exact hc.patched hs hb hlikely

/-- A block that ends in a transfer is left before the blocks under it are made. -/
private theorem visit_transfer (h : Coded c n s b d d₁ ch e) (hc : c.Sound K n)
    (hs : s ≠ Region.entrySlot) (hb : c.region.block? s = some b) (htidy : d.Tidy) (hn : n ≤ d.size)
    (hfresh : Fresh c d (c.Below s)) (hend : b.endsInTransfer = true)
    (hkids : ∀ d', c.leave b e ch.table d₁ = .ok ((), d') →
      ∀ a ∈ c.children s, Visits c n fuel a ch.table ch.stop.avail) :
    ∃ d' book, c.visit (fuel + 1) s ch.enter d = .ok ((), d') ∧
      Visited c n (c.Below s) ch.enter ch.below d d' book := by
  have hlive : c.Live s := ⟨b, hb⟩
  have hn₁ : n ≤ d₁.size := h.size ▸ hn
  obtain ⟨d₂, book₁, hleave, hspread⟩ := leave_spec hc h.begun h.cur h.role (h.grown.tidy htidy) hn₁
    h.edges h.typed (by rw [h.slot, h.block]; exact h.ending) (h.patched hc hs hb)
  rw [h.block] at hleave
  have hvisited := hspread.visited (s := s) rfl hlive h.role (hc.idom_ne_self hlive) h.bare
    (by rw [h.lookup, if_pos rfl])
  obtain ⟨d₃, book₂, hrun₃, hunder⟩ :=
    h.under hc hlive htidy hn hfresh (hkids d₂ hleave) hspread.grown
  obtain ⟨book, hall⟩ := hvisited.join_under hc hn₁ hlive hunder hspread.main.table
    hspread.main.stop.avail
  have hswitch : (liftM (switchTo d₂.builder.current) : Walk Unit) d₃ =
      .ok ((), d₃.goTo d₂.builder.current) :=
    switchTo_run (Nat.lt_of_lt_of_le hspread.stands hunder.grown.size)
  have hlast := hall.append (fun _ => id) (grown_goTo d₂.builder.current) rfl rfl
  refine ⟨_, book, ?_, hlast.prepend ⟨hlive, .refl _ _⟩ h.grown h.size fun x hx => by
    rw [h.lookup, if_neg hx]⟩
  -- The steps of the walk; there is no fallthrough to make in the end.
  have hget : (get : Walk Draft) d₂ = .ok (d₂, d₂) := rfl
  refine (visit_eq hc hs hb hn).trans ((run_bind h.run).trans ?_)
  simp only [hend, if_true]
  refine (run_bind hleave).trans ((run_bind hget).trans ((run_bind hrun₃).trans
    ((run_bind hswitch).trans ?_)))
  rw [lowerFallthrough_eq, hend]
  rfl

/-- A block that falls through is left after the blocks under it are made. -/
private theorem visit_fallthrough (h : Coded c n s b d d₁ ch e) (hc : c.Sound K n)
    (hs : s ≠ Region.entrySlot) (hb : c.region.block? s = some b) (htidy : d.Tidy) (hn : n ≤ d.size)
    (hfresh : Fresh c d (c.Below s)) (hend : b.endsInTransfer = false)
    (hkids : ∀ a ∈ c.children s, Visits c n fuel a ch.table ch.stop.avail) :
    ∃ d' book, c.visit (fuel + 1) s ch.enter d = .ok ((), d') ∧
      Visited c n (c.Below s) ch.enter ch.below d d' book := by
  have hlive : c.Live s := ⟨b, hb⟩
  have hn₁ : n ≤ d₁.size := h.size ▸ hn
  obtain rfl := eq_onward h.ending hend
  obtain ⟨d₂, book₁, hrun₂, hunder⟩ := h.under hc hlive htidy hn hfresh hkids (.refl _ d₁)
  -- The block is as it was when the walk comes back to it.
  have hnot : ¬ c.Places (c.Under s) (c.place s).index := by
    rintro ⟨x, hx, hplace⟩
    exact hc.ne_of_under hx (hc.place_inj (hunder.live x hx) hlive hplace.symm)
  have hlt₁ := h.begun.lt_size
  let d₃ := d₂.goTo d₁.builder.current
  have hgrown₃ : Grown (c.Places (c.Under s)) d₁ d₃ := hunder.grown.trans (grown_goTo _)
  have hunder₃ : Visited c n (c.Under s) ch.table ch.stop.avail d₁ d₃ book₁ :=
    hunder.append (fun _ => id) (grown_goTo _) rfl rfl
  have hphis₃ : d₃.phis.lookup s = some ch.phis := by
    rw [hunder₃.others s fun hu => hc.ne_of_under hu rfl, h.lookup, if_pos rfl]
  obtain ⟨d₄, book₂, hleave, hspread⟩ := leave_spec hc
    (h.begun.mono hgrown₃ (hgrown₃.view _ hlt₁ hnot)) h.cur h.role
    (hgrown₃.tidy (h.grown.tidy htidy)) (Nat.le_trans hn₁ hgrown₃.size)
    ((hgrown₃.edges_from hlt₁ hnot).trans h.edges) h.typed
    (by rw [h.slot, h.block]; exact h.ending) (h.patched hc hs hb)
  rw [h.block] at hleave
  have hvisited := hspread.visited (s := s) rfl hlive h.role (hc.idom_ne_self hlive) h.bare hphis₃
  obtain ⟨book, hall⟩ := hunder₃.join_over hc hn₁ hlive hvisited hspread.main.table
    hspread.main.stop.avail
  refine ⟨d₄, book, ?_, hall.prepend ⟨hlive, .refl _ _⟩ h.grown h.size fun x hx => by
    rw [h.lookup, if_neg hx]⟩
  -- The steps of the walk.
  have hget : (get : Walk Draft) d₁ = .ok (d₁, d₁) := rfl
  have hswitch : (liftM (switchTo d₁.builder.current) : Walk Unit) d₂ = .ok ((), d₃) := by
    refine switchTo_run ?_
    change d₁.cur < d₂.size
    rw [h.cur]
    exact Nat.lt_of_lt_of_le hlt₁ hunder.grown.size
  refine (visit_eq hc hs hb hn).trans ((run_bind h.run).trans ?_)
  simp only [hend, Bool.false_eq_true, if_false]
  refine (run_bind hget).trans ((run_bind hrun₂).trans ((run_bind hswitch).trans ?_))
  rw [lowerFallthrough_eq, hend]
  exact hleave

end Coded

/-- The walk makes the code of a block and of all blocks below it. -/
theorem visit_spec (hc : c.Sound K n) (fuel : Nat) (s : Slot) (hs : s ≠ Region.entrySlot)
    (hlive : c.Live s) (hfuel : c.region.flowGraph.nodes.length <
      (c.region.flowGraph.domSets.get s).length + fuel)
    (t : RegTable) (A : Value → Prop) (hfull : c.Full t) (hhands : c.Hands s t) :
    Visits c n fuel s t A := by
  induction fuel generalizing s t A with
  | zero =>
    have := Flow.Graph.length_domSets_le hc.wellFormed (hc.reachable hlive)
    omega
  | succ fuel ih =>
    intro d htidy hn ht hfresh
    obtain ⟨b, hb⟩ := hlive
    have hlive : c.Live s := ⟨b, hb⟩
    obtain ⟨d₁, ch, e, h, rfl, rfl⟩ := exists_coded hc hs hb htidy ht
      (hfresh.sub fun x hx => by subst hx; exact ⟨hlive, .refl _ _⟩) hfull hhands
    -- A child has a dominator more than the block, so the fuel lasts.
    have hkids : ∀ d', (if b.endsInTransfer then c.leave b e ch.table else pure ()) d₁ = .ok ((), d') →
        ∀ a ∈ c.children s, Visits c n fuel a ch.table ch.stop.avail := by
      intro d' hleave a ha
      obtain ⟨halive, haidom⟩ := hc.mem_children.1 ha
      have hdom := hc.below_of_idom halive haidom
      have hane : a ≠ Region.entrySlot := by
        rintro rfl
        exact hdom.2 hdom.1.eq_entry
      have hcode : (if b.isRegionEntry then c.enterRegion ch.enter else c.lowerBlock s b ch.enter)
          (d.goTo (c.place s)) = .ok (ch.table, d') := by
        rw [hc.mark s b hs hb, if_neg (by simp)]
        exact h.lowerBlock_eq_ok hc hb hn hleave
      have hlt := Flow.Graph.length_domSets_lt hc.wellFormed (hc.reachable halive) hdom
      exact ih a hane halive (by omega) ch.table ch.stop.avail h.begun.full
        (.child hhands hb hcode ha)
    cases hend : b.endsInTransfer with
    | true =>
      refine h.visit_transfer hc hs hb htidy hn hfresh hend fun d' hleave => hkids d' ?_
      rw [hend]
      exact hleave
    | false =>
      refine h.visit_fallthrough hc hs hb htidy hn hfresh hend (hkids d₁ ?_)
      rw [hend]
      rfl

end HotRegion.Lowering
