import HotRegion.Proofs.Region.Cutting

/-!
# The halves of a block

Cutting a block parts its words between the block and a new one behind it. The new block takes over
the edges that leave the block and the known targets of its register jump; the block itself goes on
at the new one. Nothing else in the region changes, but that its successors now come after the new
block. All of this needs no more than edges that are kept at both ends: the block may be its own
successor, and the region may hold blocks that nothing leads to.

## Key results

- `foldlM_moveEdge_relink`: what handing edges over changes, block by block
- `splitAt_halves`: the halves of a block, their edges, and the rest of the region
-/

namespace HotRegion.Region

open Isa
open Machine (wordAddr)
open Ascending (Sorted)

variable {r r' : Region} {s t x : Slot} {a b : Block} {addr : UInt32} {i : Nat}

/-! ## Storage -/

/-- How the parts of a region are kept: the synthetic entry has its slot, free slots are free and
listed once, and the successors of every block and the address table ascend. -/
structure Stored (r : Region) : Prop where
  entry : ∃ e, r.block? entrySlot = some e ∧ e.isRegionEntry = true
  free_dead : ∀ s ∈ r.free, s < r.slots.size ∧ r.block? s = none
  free_nodup : r.free.Nodup
  sorted : ∀ s, Sorted id (r.succs s)
  addr_sorted : Sorted (fun p : UInt32 × Slot => p.1.toNat) r.byAddr

/-! ## Handing edges over -/

/-- The block with predecessor `t` in place of `s`. -/
def Block.redirect (b : Block) (s t : Slot) : Block :=
  { b with preds := if s ∈ b.preds then Flow.insert t (b.preds.filter (· != s)) else b.preds }

theorem Block.mem_preds_redirect (b : Block) (s t p : Slot) :
    p ∈ (b.redirect s t).preds ↔ p ∈ b.preds ∧ p ≠ s ∨ s ∈ b.preds ∧ p = t := by
  unfold redirect
  by_cases hs : s ∈ b.preds
  · simp [hs, or_comm]
  · have hp : p ∈ b.preds → p ≠ s := by
      rintro hp rfl
      exact hs hp
    simpa [hs] using hp

/-- Putting the elements of an ascending list into the empty one gives the list. -/
private theorem foldl_insert_nil {l : List Slot} (h : Sorted id l) :
    l.foldl (fun acc u => Flow.insert u acc) [] = l := by
  have hmem : ∀ u, u ∈ Ascending.ofList id l ↔ u ∈ l := fun u =>
    Ascending.mem_ofList (fun _ _ h => h) u l
  exact (Sorted.union (l := []) .nil l).ext h hmem

/-- Handing edges of the block in `s` over to the one in `t`: those edges leave the one and are added
to the other, and their targets change predecessors. -/
theorem foldlM_moveEdge_relink (l : List Slot) (hnodup : l.Nodup) (hne : s ≠ t)
    (hs : r.block? s = some a) (ht : ∃ b, r.block? t = some b)
    (hl : ∀ u ∈ l, u ∈ a.succs ∧ ∃ b, r.block? u = some b) :
    ∃ r', l.foldlM (fun r u => do (← r.removeEdge s u).addEdge t u) r = Except.ok r' ∧
      SameBlocks r r' ∧ ∀ x, r'.block? x = (r.block? x).map fun c =>
        c.relink
          (if x = s then (·.filter (!l.contains ·))
            else if x = t then l.foldl (fun acc u => Flow.insert u acc) else id)
          (if x ∈ l then fun preds => Flow.insert t (preds.filter (· != s)) else id) := by
  -- Induction on the edges to move. The block that loses them changes with each, so `a` is not
  -- fixed.
  induction l generalizing r a with
  | nil =>
    refine ⟨r, rfl, .refl r, fun x => ?_⟩
    have hall : ∀ succs : List Slot, succs.filter (!List.contains [] ·) = succs := fun succs =>
      List.filter_eq_self.2 fun _ _ => rfl
    cases hx : r.block? x with
    | none => rfl
    | some c =>
      rw [if_neg List.not_mem_nil, Option.map_some, Option.some.injEq]
      unfold Block.relink
      split
      · simp only [hall, id]
      · split <;> rfl
  | cons u l ih =>
    obtain ⟨hu, hnodup⟩ := List.nodup_cons.1 hnodup
    obtain ⟨hus, hulive⟩ := hl u List.mem_cons_self
    obtain ⟨r₁, hok₁, hsame₁, hblock₁⟩ := removeEdge_relink hs hulive hus
    obtain ⟨b₁, hb₁⟩ := hsame₁.live.2 ht
    obtain ⟨r₂, hok₂, hsame₂, hblock₂⟩ := addEdge_relink hb₁ (hsame₁.live.2 hulive)
    have hsame := hsame₁.trans hsame₂
    have hs₂ : ∃ a₂, r₂.block? s = some a₂ ∧ a₂.succs = a.succs.filter (· != u) := by
      rw [hblock₂, hblock₁, hs]
      exact ⟨_, rfl, by simp [Block.relink, hne]⟩
    obtain ⟨a₂, ha₂, hsuccs₂⟩ := hs₂
    obtain ⟨r', hok, hsame', hblock⟩ := ih hnodup ha₂ (hsame.live.2 ht) fun v hv => by
      obtain ⟨hvs, hvlive⟩ := hl v (List.mem_cons_of_mem _ hv)
      refine ⟨?_, hsame.live.2 hvlive⟩
      have hvu : v ≠ u := by
        rintro rfl
        exact hu hv
      rw [hsuccs₂, List.mem_filter]
      exact ⟨hvs, by simpa using hvu⟩
    refine ⟨r', ?_, hsame.trans hsame', fun x => ?_⟩
    · rw [List.foldlM_cons]
      change ((r.removeEdge s u >>= fun r => r.addEdge t u) >>= _) = _
      rw [hok₁]
      change (r₁.addEdge t u >>= _) = _
      rw [hok₂]
      exact hok
    · rw [hblock, hblock₂, hblock₁, Option.map_map, Option.map_map]
      congr 1
      funext c
      simp only [Function.comp_apply, Block.relink, Block.mk.injEq, true_and, and_true]
      constructor
      · -- Of the successors only those of the two blocks change.
        by_cases hxs : x = s
        · have hxt : x ≠ t := hxs ▸ hne
          simp only [if_pos hxs, if_neg hxt, id, List.filter_filter]
          apply List.filter_congr
          intro v _
          rw [List.contains_cons, Bool.not_or, Bool.and_comm]
          rfl
        · by_cases hxt : x = t <;> simp [hxs, hxt, hne.symm]
      · -- The predecessors of `u` change now, those of the others in later rounds.
        by_cases hxu : x = u
        · subst hxu
          simp [hu]
        · simp [hxu]

/-- Where the successors of the block in `s` are those that know it for a predecessor, all of its
edges can be handed over to the one in `t`, and an edge put between the two. -/
private theorem exists_handover (hne : s ≠ t) (hs : r.block? s = some a)
    (ht : r.block? t = some b) (hb : b.Isolated) (hsorted : Sorted id a.succs)
    (hlive : ∀ u ∈ a.succs, ∃ c, r.block? u = some c)
    (hpreds : ∀ x c, r.block? x = some c → (x ∈ a.succs ↔ s ∈ c.preds)) :
    ∃ r₁ r', a.succs.foldlM (fun r u => do (← r.removeEdge s u).addEdge t u) r = Except.ok r₁ ∧
      r₁.addEdge s t = .ok r' ∧ SameBlocks r r' ∧
      r'.block? s = some { a.redirect s t with succs := [t] } ∧
      r'.block? t = some { b with succs := a.succs, preds := [s] } ∧
      ∀ x, x ≠ s → x ≠ t → r'.block? x = (r.block? x).map (·.redirect s t) := by
  obtain ⟨r₁, hok₁, hsame₁, hblock₁⟩ := foldlM_moveEdge_relink a.succs hsorted.nodup hne hs
    ⟨b, ht⟩ fun u hu => ⟨hu, hlive u hu⟩
  obtain ⟨a₁, ha₁⟩ := hsame₁.live.2 ⟨a, hs⟩
  obtain ⟨r', hok, hsame, hblock⟩ := addEdge_relink ha₁ (hsame₁.live.2 ⟨b, ht⟩)
  refine ⟨r₁, r', hok₁, hok, hsame₁.trans hsame, ?source, ?target, fun x hxs hxt => ?other⟩
  case source =>
    -- No successor is left to the block but the one it handed its edges to.
    have hnil : a.succs.filter (!a.succs.contains ·) = [] := by
      apply List.filter_eq_nil_iff.2
      intro u hu
      simpa using hu
    rw [hblock, hblock₁, hs]
    simp only [Option.map_some, Block.relink, if_pos, if_neg hne, id, hnil, hpreds s a hs,
      Block.redirect]
    split <;> rfl
  case target =>
    -- The other block comes without edges, so what it has then is what it was handed.
    have htsuccs : t ∉ a.succs := by
      rw [hpreds t b ht, hb.2]
      exact List.not_mem_nil
    rw [hblock, hblock₁, ht]
    simp only [Option.map_some, Block.relink, if_pos, if_neg hne.symm, if_neg htsuccs, id, hb.1,
      hb.2, foldl_insert_nil hsorted]
    rfl
  case other =>
    rw [hblock, hblock₁, Option.map_map]
    cases hx : r.block? x with
    | none => rfl
    | some c =>
      simp only [Option.map_some, Function.comp_apply, Block.relink, if_neg hxs, if_neg hxt, id,
        Block.redirect, Option.some.injEq, Block.mk.injEq, true_and, and_true, hpreds x c hx]
      split <;> rfl

/-! ## Cutting a block -/

/-- What becomes of a region when the block `b` in slot `s` is cut at `addr` and its second half goes
to slot `t`. -/
structure Halved (r r' : Region) (s t : Slot) (addr : UInt32) (b head tail : Block) : Prop where
  fresh : r.block? t = none
  head_at : r'.block? s = some head
  tail_at : r'.block? t = some tail
  code : head.code ++ tail.code = b.code
  ne_nil : head.code ≠ [] ∧ tail.code ≠ []
  entries : head.entry = b.entry ∧ tail.entry = addr
  /-- The decoded instructions are cut where the words are. -/
  instrs : head.instrs = b.instrs.take head.code.length ∧
    tail.instrs = b.instrs.drop head.code.length
  succs : head.succs = [t] ∧ tail.succs = b.succs
  preds : head.preds = (b.redirect s t).preds ∧ tail.preds = [s]
  targets : head.indirectTargets = [] ∧ tail.indirectTargets = b.indirectTargets
  others : ∀ x, x ≠ s → x ≠ t → r'.block? x = (r.block? x).map (·.redirect s t)
  at_addr : r'.blockAt? addr = some t
  at_other : ∀ x, x ≠ addr → r'.blockAt? x = r.blockAt? x

/-- The words of a block, with their addresses, are those of its halves. -/
theorem Block.code_splitAt (b : Block) (hi : i ≤ b.words.length) :
    (b.splitAt i).1.code ++ (b.splitAt i).2.code = b.code := by
  apply List.ext_getElem?
  intro j
  rw [getElem?_code]
  have hlen : (b.splitAt i).1.code.length = i := by
    rw [length_code]
    exact List.length_take_of_le hi
  rcases Nat.lt_or_ge j i with hlt | hge
  · rw [List.getElem?_append_left (by omega), getElem?_code]
    change ((b.words.take i)[j]?).map _ = _
    rw [List.getElem?_take, if_pos hlt]
    rfl
  · rw [List.getElem?_append_right (by omega), getElem?_code, hlen]
    change ((b.words.drop i)[j - i]?).map _ = _
    rw [List.getElem?_drop, Nat.add_sub_cancel' hge]
    congr 1
    funext w
    change (w, wordAddr (wordAddr b.entry i) (j - i)) = _
    rw [← Machine.wordAddr_add, Nat.add_sub_cancel' hge]

/-- The halves of a block are put in: the first takes the place of the block, the second a new one. -/
private theorem exists_put_halves (h : Stored r) (hb : r.block? s = some b)
    (hpos : b.position? addr = some i) (hmark : addr ≠ entryMark) :
    ∃ r' t, (r.setBlock s (b.splitAt i).1).insertBlock (b.splitAt i).2 = (r', t) ∧
      r.block? t = none ∧ r'.block? s = some (b.splitAt i).1 ∧ r'.block? t = some (b.splitAt i).2 ∧
      (∀ x, x ≠ s → x ≠ t → r'.block? x = r.block? x) ∧
      ∀ x, r'.blockAt? x = if x = addr then some t else r.blockAt? x := by
  obtain ⟨-, haddr, -⟩ := Block.position?_eq_some hpos
  let tail := (b.splitAt i).2
  have htail : tail.entry = addr := haddr
  have hguest : tail.isGuest = true := by
    have hne : (tail.entry == entryMark) = false := by simpa [htail] using hmark
    simp only [Block.isGuest, Block.isRegionEntry, hne]
    rfl
  let r₁ := r.setBlock s (b.splitAt i).1
  have hblock₁ : ∀ x, r₁.block? x = if x = s then some (b.splitAt i).1 else r.block? x :=
    block?_setBlock hb _
  -- The first half takes the place of the whole block, so the same slots are free.
  have hdead₁ : ∀ x ∈ r₁.free, x < r₁.slots.size ∧ r₁.block? x = none := by
    intro x hx
    obtain ⟨hxlt, hxnone⟩ := h.free_dead x hx
    have hxs : x ≠ s := by
      rintro rfl
      rw [hb] at hxnone
      cases hxnone
    refine ⟨by simpa [r₁, setBlock] using hxlt, ?_⟩
    rw [hblock₁, if_neg hxs]
    exact hxnone
  obtain ⟨r₂, t, hins, hf⟩ := exists_fills_insertBlock (r := r₁) h.free_nodup hdead₁ tail
  rw [hguest, if_pos rfl] at hins
  have hst : s ≠ t := hf.ne ⟨_, (hblock₁ s).trans (if_pos rfl)⟩
  have hnone := hf.vacant
  refine ⟨_, t, hins, ?_, ?_, hf.block, fun x hxs hxt => ?_, fun x => ?_⟩
  · rwa [hblock₁, if_neg hst.symm] at hnone
  · change r₂.block? s = _
    rw [hf.other s hst, hblock₁, if_pos rfl]
  · change r₂.block? x = _
    rw [hf.other x hxt, hblock₁, if_neg hxs]
  · have hsorted : Sorted (fun p : UInt32 × Slot => p.1.toNat) r₂.byAddr :=
      hf.byAddr ▸ h.addr_sorted
    rw [blockAt?_setBlockAt hsorted, htail, hf.blockAt?]
    rfl

/-- A cut inside a guest block succeeds and makes two halves of it. -/
private theorem exists_halved (h : Stored r) (hsymm : ∀ s t, t ∈ r.succs s ↔ s ∈ r.preds t)
    (hb : r.block? s = some b) (hguest : b.isGuest = true) (hpos : b.position? addr = some i)
    (hlt : b.entry < addr) (hmark : addr ≠ entryMark) :
    ∃ r' t head tail, r.splitAt s addr = .ok (r', t) ∧ Halved r r' s t addr b head tail := by
  obtain ⟨hi, haddr, -⟩ := Block.position?_eq_some hpos
  obtain ⟨r₁, t, hput, hnone, hs₁, ht₁, hother₁, hat₁⟩ := exists_put_halves h hb hpos hmark
  have hst : s ≠ t := by
    rintro rfl
    rw [hb] at hnone
    cases hnone
  -- The block knows its successors and they know it, so the slot of the second half is none.
  have hpreds : ∀ x c, r.block? x = some c → (x ∈ b.succs ↔ s ∈ c.preds) := by
    intro x c hc
    rw [← succs_of_block hb, ← preds_of_block hc]
    exact hsymm s x
  have hlive : ∀ u ∈ b.succs, ∃ c, r.block? u = some c := by
    intro u hu
    rw [← Option.ne_none_iff_exists']
    intro hdead
    have hpred : s ∈ r.preds u := (hsymm s u).1 (by rwa [succs_of_block hb])
    rw [preds_of_none hdead] at hpred
    exact absurd hpred List.not_mem_nil
  have htsuccs : t ∉ b.succs := by
    intro hmem
    obtain ⟨c, hc⟩ := hlive t hmem
    rw [hnone] at hc
    cases hc
  have hsorted : Sorted id b.succs := succs_of_block hb ▸ h.sorted s
  obtain ⟨r₂, r', hok₂, hok, hsame, hs', ht', hother⟩ := exists_handover hst hs₁ ht₁ ⟨rfl, rfl⟩ hsorted
    (fun u hu => by
      obtain ⟨c, hc⟩ := hlive u hu
      by_cases hus : u = s
      · exact ⟨_, hus ▸ hs₁⟩
      · refine ⟨c, (hother₁ u hus ?_).trans hc⟩
        rintro rfl
        exact htsuccs hu)
    (fun x c hc => by
      by_cases hxs : x = s
      · rw [hxs, hs₁, Option.some.injEq] at hc
        rw [hxs, ← hc]
        exact hpreds s b hb
      by_cases hxt : x = t
      · rw [hxt, ht₁, Option.some.injEq] at hc
        rw [hxt, ← hc]
        exact iff_of_false htsuccs List.not_mem_nil
      · exact hpreds x c ((hother₁ x hxs hxt).symm.trans hc))
  let head : Block := { (b.splitAt i).1 with succs := [t], preds := (b.redirect s t).preds }
  let tail : Block := { (b.splitAt i).2 with succs := b.succs, preds := [s] }
  have hcode : head.code ++ tail.code = b.code := b.code_splitAt (Nat.le_of_lt hi)
  have hcut : head.code.length = i := by
    rw [Block.length_code]
    exact List.length_take_of_le (Nat.le_of_lt hi)
  have hipos := Block.position?_pos hpos hlt
  refine ⟨r', t, head, tail, ?run, {
    fresh := hnone, head_at := hs', tail_at := ht', code := hcode
    ne_nil := ⟨List.ne_nil_of_length_pos (hcut ▸ hipos), ?ne_nil⟩
    entries := ⟨rfl, haddr⟩
    instrs := by rw [hcut]; exact ⟨rfl, rfl⟩
    succs := ⟨rfl, rfl⟩, preds := ⟨rfl, rfl⟩, targets := ⟨rfl, rfl⟩
    others := fun x hxs hxt => by rw [hother x hxs hxt, hother₁ x hxs hxt]
    at_addr := by rw [hsame.blockAt?, hat₁, if_pos rfl]
    at_other := fun x hx => by rw [hsame.blockAt?, hat₁, if_neg hx] }⟩
  case run =>
    change b.succs.foldlM _ r₁ = _ at hok₂
    rw [splitAt_eq hb hguest hpos hlt hput, hok₂]
    change (r₂.addEdge s t >>= _) = _
    rw [hok]
    rfl
  case ne_nil =>
    apply List.ne_nil_of_length_pos
    have hlen := congrArg List.length hcode
    rw [List.length_append, hcut, Block.length_code b] at hlen
    omega

/-- A block contains an address if one of its words lies there. -/
theorem Block.contains_iff : b.contains addr = true ↔ ∃ w, (w, addr) ∈ b.code := by
  unfold contains position?
  rw [List.findIdx?_isSome, List.any_eq_true]
  constructor
  · rintro ⟨⟨w, x⟩, hmem, hx⟩
    obtain rfl := eq_of_beq hx
    exact ⟨w, hmem⟩
  · rintro ⟨w, hmem⟩
    exact ⟨(w, addr), hmem, beq_self_eq_true addr⟩

/-- Cutting a block of a region with symmetric edges. At the address of one of its words past the
first, a guest block is cut into two halves, and nothing else changes but that its successors now
come after the second half. At any other address the cut fails, and so it does for patch blocks and
for the synthetic entry. -/
theorem splitAt_halves (r : Region) (s : Slot) (b : Block) (addr : UInt32) (h : Stored r)
    (hsymm : ∀ s t, t ∈ r.succs s ↔ s ∈ r.preds t) (hb : r.block? s = some b) :
    (b.isGuest = true → (∃ w, (w, addr) ∈ b.code) → b.entry < addr → addr ≠ entryMark →
      ∃ r' t head tail, r.splitAt s addr = .ok (r', t) ∧ Halved r r' s t addr b head tail) ∧
    (b.isGuest = true → ¬ (∃ w, (w, addr) ∈ b.code) ∨ addr ≤ b.entry →
      r.splitAt s addr = .error (.splitOutside addr)) ∧
    (b.isPatch = true ∨ s = entrySlot → r.splitAt s addr = .error .splitNotGuest) := by
  have hrun : r.splitAt s addr = Except.ok b >>= _ := congrArg (· >>= _) (block_eq_ok hb)
  refine ⟨fun hguest hmem hlt hmark => ?_, fun hguest hout => ?_, fun hother => ?_⟩
  · obtain ⟨i, hpos⟩ := Option.isSome_iff_exists.1 (Block.contains_iff.2 hmem)
    exact exists_halved h hsymm hb hguest hpos hlt hmark
  · rw [hrun]
    change (if (!b.isGuest) = true then _ else _) = _
    rw [hguest, if_neg (by simp)]
    cases hpos : b.position? addr with
    | none => rfl
    | some i =>
      -- The address is one of the block, so it must be too low.
      have hmem := Block.contains_iff.1 (Option.isSome_iff_exists.2 ⟨i, hpos⟩)
      have hle := hout.resolve_left (not_not_intro hmem)
      change (if addr ≤ b.entry then _ else _) = _
      rw [if_pos hle]
      rfl
  · have hguest : b.isGuest = false := by
      unfold Block.isGuest
      rcases hother with hpatch | rfl
      · rw [hpatch]
        rfl
      · obtain ⟨e, he, hmark⟩ := h.entry
        rw [hb, Option.some.injEq] at he
        rw [he, hmark, Bool.not_true, Bool.and_false]
    rw [hrun]
    change (if (!b.isGuest) = true then _ else _) = _
    rw [hguest]
    rfl

/-- A block that goes back to itself. -/
def loopedBlock : Region where
  entryAddr := 0x100
  slots := #[some { Block.entryBlock with succs := [1] },
    some { entry := 0x100, words := [0x2508ffff, 0x1500fffe, 0], succs := [1], preds := [0, 1] }]
  free := []
  byAddr := [(0x100, 1)]
  tree := none
  fpTouched := .none

/-- The second half of the block, and no longer the first, goes back to where the block starts. -/
theorem splitAt_halves_loopedBlock :
    ∃ (r' : Region) (t : Slot) (head tail : Block), loopedBlock.splitAt 1 0x104 = .ok (r', t) ∧
      r'.block? 1 = some head ∧ r'.block? t = some tail ∧ 1 ∈ tail.succs ∧
      (∀ p, p ∈ head.preds ↔ p = 0 ∨ p = t) := by
  have hstored : Stored loopedBlock := by
    refine ⟨⟨_, rfl, rfl⟩, ?_, List.nodup_nil, fun s => ?_, by simp [loopedBlock, Sorted]⟩
    · intro s hs
      cases hs
    · rcases s with _ | _ | s <;>
        simp [succs, flowGraph, loopedBlock, block?, Block.entryBlock, Sorted]
  have hsymm : ∀ s t, t ∈ loopedBlock.succs s ↔ s ∈ loopedBlock.preds t :=
    symmetric_of_blocks (by decide +kernel)
  obtain ⟨r', t, head, tail, hok, hcut⟩ := (splitAt_halves loopedBlock 1 _ 0x104 hstored hsymm rfl).1
    (by decide) ⟨0x1500fffe, by decide⟩ (by decide) (by decide)
  refine ⟨r', t, head, tail, hok, hcut.head_at, hcut.tail_at, ?_, fun p => ?_⟩
  · rw [hcut.succs.2]
    exact List.mem_singleton_self 1
  · rw [hcut.preds.1, Block.mem_preds_redirect]
    simp only [List.mem_cons, List.not_mem_nil, or_false]
    constructor
    · rintro (⟨rfl | rfl, hp⟩ | ⟨-, rfl⟩)
      · exact .inl rfl
      · exact absurd rfl hp
      · exact .inr rfl
    · rintro (rfl | rfl)
      · exact .inl ⟨.inl rfl, Nat.zero_ne_one⟩
      · exact .inr ⟨.inr trivial, rfl⟩

end HotRegion.Region
