import HotRegion.Proofs.Region.Ready

/-!
# Exact edges

What a region of guest blocks has edges for is exactly where its code can go on: a block without a
likely branch goes to the blocks at its static targets, and a likely branch to its patch block and
to the block it goes on at when it is not taken.

## Key results

- `charted_patchAll`: patching a wired region leaves exactly these edges
- `Charted.prune`: pruning does too
- `Charted.exact`: a ready region with these edges is the control flow of the guest
-/

namespace HotRegion.Region

open Isa
open Ascending (Sorted)

variable {r r' : Region} {s t p x y : Slot} {a b c : Block} {addr : UInt32} {l : List Slot}
  {K : UInt32 × UInt32 → Prop}

/-- Control goes from the block to exactly the blocks of the region at its static targets. -/
def Goes (r : Region) (s : Slot) (b : Block) : Prop :=
  ∀ t, t ∈ r.succs s ↔ ∃ addr ∈ b.staticTargets, r.blockAt? addr = some t

/-- The likely branch that ends `a` has the patch block `c` for itself, and control goes on at the
block where the branch is not taken, or by way of the patch block at the one where it is. -/
structure Parts (r : Region) (s p : Slot) (a c : Block) (tr : Transfer)
    (taken notTaken w : UInt32) : Prop extends a.PatchOf c tr taken notTaken w where
  patch : r.bare? p = some c
  owner : ∀ x, p ∈ r.succs x ↔ x = s
  next : ∀ t, t ∈ r.succs s ↔ t = p ∨ r.blockAt? notTaken = some t
  goes : ∀ t, t ∈ r.succs p ↔ r.blockAt? taken = some t

/-- The edges of a region are those of its code, with the likely branches in `pending` still to be
patched. -/
structure Charted (r : Region) (pending : List Slot) : Prop where
  indexed : ∀ s b, s ≠ entrySlot → r.bare? s = some b → b.patchTarget = none →
    r.blockAt? b.entry = some s
  plain : ∀ s b, s ≠ entrySlot → r.bare? s = some b → (b.endsInLikely = true → s ∈ pending) →
    r.Goes s b
  likely : ∀ s a, s ≠ entrySlot → r.bare? s = some a → a.endsInLikely = true → s ∉ pending →
    ∃ p c tr taken notTaken w, r.Parts s p a c tr taken notTaken w

/-! ## Patching -/

/-- The edges of a wired region are those of its code before any branch is patched. -/
theorem Wired.charted (hw : Wired r) (h : Woven K r)
    (hl : ∀ s a, s ≠ entrySlot → r.bare? s = some a → a.endsInLikely = true → s ∈ l) :
    Charted r l where
  indexed s b hs hb _ := hw.indexed s b hs hb
  plain s b hs hb _ t := by
    constructor
    · intro hst
      obtain ⟨c, hc⟩ := exists_block_iff_bare?.1 (h.linked.live s t hst)
      have ht : t ≠ entrySlot := by
        rintro rfl
        exact h.no_back s hst
      exact ⟨c.entry, h.edge s t b c hs hst hb hc, hw.indexed t c ht hc⟩
    · rintro ⟨addr, haddr, ht⟩
      exact hw.complete s b addr t hs hb haddr ht
  likely s a hs ha hlikely hnot := absurd (hl s a hs ha hlikely) hnot

/-- A likely branch goes to its target or past its delay slot. -/
theorem Block.Likely.staticTargets {tr : Transfer} {taken notTaken w : UInt32}
    (h : a.Likely tr taken notTaken w) : a.staticTargets = [taken, notTaken] := by
  simp [Block.staticTargets, h.transfer, h.control, Control.targets]

/-- The likely branch that is patched goes, in `r`, to its two targets. -/
private structure Patching (r r' : Region) (s p : Slot) (a : Block) (tr : Transfer)
    (taken notTaken w : UInt32) : Prop extends PatchedAt r r' s p a tr taken notTaken w where
  goes : ∀ t, t ∈ r.succs s ↔ r.blockAt? taken = some t ∨ r.blockAt? notTaken = some t

namespace Patching

variable {tr tr' : Transfer} {taken notTaken w taken' notTaken' w' : UInt32} {q : Slot}

/-- The patch block goes on at the target of the branch. -/
theorem succs_patch (h : Patching r r' s p a tr taken notTaken w) :
    y ∈ r'.succs p ↔ r.blockAt? taken = some y := by
  have hnot : y ∉ r.succs p := fun hy => (h.linked.ne_of_free h.free hy).1 rfl
  rw [h.edges]
  simp only [hnot, false_and, true_and, h.source_ne.symm, or_false, false_or]
  exact and_iff_left_of_imp fun hy => (h.goes y).2 (.inl hy)

/-- The branch goes to its patch block, or past its delay slot. -/
theorem succs_branch (h : Patching r r' s p a tr taken notTaken w) :
    t ∈ r'.succs s ↔ t = p ∨ r.blockAt? notTaken = some t := by
  -- A block has one address, so only a branch to where it goes on anyway keeps the edge.
  have hone : r.blockAt? taken = some t → r.blockAt? notTaken = some t → taken = notTaken := by
    intro ht hn
    obtain ⟨c, hc, -, hce⟩ := h.linked.addr_guest _ _ ht
    obtain ⟨d, hd, -, hde⟩ := h.linked.addr_guest _ _ hn
    rw [hc, Option.some.injEq] at hd
    rw [← hce, hd, hde]
  rw [h.edges, h.goes]
  simp only [h.source_ne, false_and, false_or, true_and]
  grind

/-- The patch block belongs to its branch alone. -/
theorem owner (h : Patching r r' s p a tr taken notTaken w) : p ∈ r'.succs x ↔ x = s := by
  have hnot : p ∉ r.succs x := fun hx => (h.linked.ne_of_free h.free hx).2 rfl
  have hnotAt : r.blockAt? taken ≠ some p := h.linked.blockAt?_ne_of_free h.free
  rw [h.edges]
  simp [hnot, hnotAt]

/-- The branch and its patch block part as they should. -/
theorem parts (h : Patching r r' s p a tr taken notTaken w) :
    r'.Parts s p a (Block.patch w (tr.addr + 4) taken) tr taken notTaken w where
  toPatchOf := h.branch.patchOf
  patch := h.patch
  owner _ := h.owner
  next t := by
    rw [h.at_eq]
    exact h.succs_branch
  goes t := by
    rw [h.at_eq]
    exact h.succs_patch

/-- Another branch that is patched stays so. -/
theorem keeps_parts (h : Patching r r' s p a tr taken notTaken w) (hxs : x ≠ s)
    (hparts : r.Parts x q b c tr' taken' notTaken' w') :
    r'.Parts x q b c tr' taken' notTaken' w' := by
  have hxp : x ≠ p := (h.linked.ne_of_free h.free ((hparts.owner x).2 rfl)).1
  have hqp : q ≠ p := h.ne_of_bare hparts.patch
  -- A patch block is straight code, so it is not the branch that is patched.
  have hqs : q ≠ s := by
    rintro rfl
    have hsource := h.source
    rw [hparts.patch, Option.some.injEq] at hsource
    have hnone := hparts.toPatchOf.transfer_eq_none
    rw [hsource, h.branch.transfer] at hnone
    cases hnone
  refine ⟨hparts.toPatchOf, (h.other q hqp).trans hparts.patch, fun y => ?owner, fun t => ?next,
    fun t => ?goes⟩
  case owner =>
    by_cases hys : y = s
    · have hnot : q ∉ r.succs s := fun hq => hxs ((hparts.owner s).1 hq).symm
      rw [hys, h.edges]
      simp [hnot, h.source_ne, hqp, Ne.symm hxs]
    · by_cases hyp : y = p
      · -- The new patch block goes to a block of the guest, and `q` is none.
        rw [hyp, h.succs_patch]
        refine iff_of_false (fun hq => ?_) (Ne.symm hxp)
        obtain ⟨d, hd, hguest, -⟩ := h.linked.addr_guest _ _ hq
        rw [hparts.patch, Option.some.injEq] at hd
        simp [← hd, Block.isGuest, Block.isPatch, hparts.target] at hguest
      · rw [h.succs_other hys hyp]
        exact hparts.owner y
  case next =>
    rw [h.succs_other hxs hxp, h.at_eq]
    exact hparts.next t
  case goes =>
    rw [h.succs_other hqs hqp, h.at_eq]
    exact hparts.goes t

end Patching

/-- One of the likely branches that are left is patched. -/
theorem Charted.patchedAt {tr : Transfer} {taken notTaken w : UInt32} (hc : Charted r (s :: l))
    (hentry : r.bare? entrySlot = some Block.entryBlock) (hnodup : s ∉ l)
    (hpatch : PatchedAt r r' s p a tr taken notTaken w) : Charted r' l := by
  have hs0 := hpatch.source_ne_entry hentry
  have hlikely : a.endsInLikely = true :=
    Block.endsInLikely_iff.2 ⟨tr, taken, notTaken, hpatch.branch.transfer, hpatch.branch.control⟩
  -- The branch still goes to both of its targets, which gives all edges of the region after it.
  have hpatching : Patching r r' s p a tr taken notTaken w := by
    refine ⟨hpatch, fun t => ?_⟩
    rw [hc.plain s a hs0 hpatch.source fun _ => List.mem_cons_self]
    simp [hpatch.branch.staticTargets]
  have hof := hpatch.branch.patchOf
  have hnone := hof.transfer_eq_none
  refine ⟨?indexed, ?plain, ?likely⟩
  case indexed =>
    intro x b hx hb hguest
    have hxp : x ≠ p := by
      rintro rfl
      rw [hpatch.patch, Option.some.injEq] at hb
      rw [← hb] at hguest
      cases hguest
    rw [hpatch.at_eq]
    exact hc.indexed x b hx (hpatch.bare_of_ne hxp hb) hguest
  case plain =>
    intro x b hx hb hpending t
    simp only [hpatch.at_eq]
    by_cases hxp : x = p
    · rw [hxp, hpatch.patch, Option.some.injEq] at hb
      rw [hxp, hpatching.succs_patch, ← hb, hof.staticTargets]
      simp
    · have hb := hpatch.bare_of_ne hxp hb
      have hxs : x ≠ s := by
        rintro rfl
        rw [hpatch.source, Option.some.injEq] at hb
        exact hnodup (hpending (hb ▸ hlikely))
      rw [hpatch.succs_other hxs hxp]
      exact hc.plain x b hx hb (fun hlikely => List.mem_cons_of_mem _ (hpending hlikely)) t
  case likely =>
    intro x b hx hb hlikely hnot
    by_cases hxp : x = p
    · rw [hxp, hpatch.patch, Option.some.injEq] at hb
      rw [hb] at hnone
      simp [Block.endsInLikely, hnone] at hlikely
    have hb := hpatch.bare_of_ne hxp hb
    by_cases hxs : x = s
    · rw [hxs, hpatch.source, Option.some.injEq] at hb
      rw [hxs, ← hb]
      exact ⟨p, _, tr, taken, notTaken, w, hpatching.parts⟩
    · obtain ⟨q, c, tr', taken', notTaken', w', hparts⟩ :=
        hc.likely x b hx hb hlikely (by simp [hxs, hnot])
      exact ⟨q, c, tr', taken', notTaken', w', hpatching.keeps_parts hxs hparts⟩

/-- Patching a wired region leaves exactly the edges of its code. -/
theorem charted_patchAll (hw : Wired r) (h : Woven K r) :
    ∃ r' n, r.patchAll = .ok (r', n) ∧ Linked r' ∧ Charted r' [] := by
  -- No likely branch is patched at the start, so all of them are still to be done.
  have hcharted : Charted r r.likelySlots := hw.charted h fun s a hs ha hlikely =>
    mem_likelySlots.2 ⟨a, ha, (h.guest s a hs ha).not_patch, hlikely⟩
  obtain ⟨r', n, hok, h', hc, -⟩ := exists_patchAll
    (P := fun l r => Charted r l ∧ r.bare? entrySlot = some Block.entryBlock)
    (fun s l r r' p a tr taken notTaken w hsl ⟨hc, hentry⟩ hpatch =>
      ⟨hc.patchedAt hentry hsl hpatch, hpatch.bare_of_bare hentry⟩)
    h.linked h.entry (fun s a hs ha _ => h.guest s a hs ha) ⟨hcharted, h.entry⟩
  exact ⟨r', n, hok, h', hc⟩

/-! ## Pruning -/

/-- Pruning leaves exactly the edges of the code of the blocks that are left. -/
theorem Charted.prune {n : Nat} (hc : Charted r []) (h : Linked r)
    (hentry : r.bare? entrySlot = some Block.entryBlock) (hok : r.prune = .ok (r', n)) :
    Charted r' [] := by
  obtain ⟨r'', n', hok', -, hbare, hmem, hat, -⟩ := prune_spec h hentry
  rw [hok] at hok'
  cases hok'
  refine ⟨fun s b hs hb hguest => ?_, fun s b hs hb hlikely t => ?_, fun s a hs ha hlikely hnot => ?_⟩
  -- Blocks that stay can be reached, and so can their successors.
  · obtain ⟨hb, hreach⟩ := (hbare s b).1 hb
    exact (hat _ s).2 ⟨hc.indexed s b hs hb hguest, hreach⟩
  · obtain ⟨hb, hreach⟩ := (hbare s b).1 hb
    rw [hmem, hc.plain s b hs hb hlikely]
    simp only [hat]
    constructor
    · rintro ⟨⟨addr, haddr, ht⟩, -⟩
      exact ⟨addr, haddr, ht, hreach.succ ((hc.plain s b hs hb hlikely t).2 ⟨addr, haddr, ht⟩)⟩
    · rintro ⟨addr, haddr, ht, -⟩
      exact ⟨⟨addr, haddr, ht⟩, hreach⟩
  · obtain ⟨ha, hreach⟩ := (hbare s a).1 ha
    obtain ⟨p, c, tr, taken, notTaken, w, hparts⟩ := hc.likely s a hs ha hlikely hnot
    have hp : r.flowGraph.Reachable p := hreach.succ ((hparts.owner s).2 rfl)
    refine ⟨p, c, tr, taken, notTaken, w, hparts.toPatchOf, (hbare p c).2 ⟨hparts.patch, hp⟩,
      fun x => ?_, fun t => ?_, fun t => ?_⟩
    · rw [hmem, hparts.owner]
      exact and_iff_left_of_imp fun hx => hx ▸ hreach
    · rw [hmem, hat, hparts.next, and_iff_left hreach]
      refine or_congr_right (and_iff_left_of_imp fun ht => ?_).symm
      exact hreach.succ ((hparts.next t).2 (.inr ht))
    · rw [hmem, hat, hparts.goes, and_iff_left hp]
      exact (and_iff_left_of_imp fun ht => hp.succ ((hparts.goes t).2 ht)).symm

/-! ## Control flow -/

/-- The blocks and edges of the region are the control flow of the guest inside it. -/
structure Exact (r : Region) : Prop where
  reachable : ∀ s b, r.block? s = some b → r.flowGraph.Reachable s
  /-- Nothing leads to the synthetic entry, and it leads to the block at the address of the region. -/
  entry : ∃ b f, r.block? entrySlot = some b ∧ b.entry = entryMark ∧ b.words = [] ∧ b.preds = [] ∧
    b.succs = [f] ∧ r.blockAt? r.entryAddr = some f
  /-- The addresses of the region are those of its guest blocks, one each. -/
  at_iff : ∀ addr s, r.blockAt? addr = some s ↔
    ∃ b, r.block? s = some b ∧ b.isGuest = true ∧ b.entry = addr
  /-- A block without a likely branch goes to the blocks at its static targets. -/
  plain : ∀ s b, s ≠ entrySlot → r.block? s = some b → b.endsInLikely = false →
    ∀ t, t ∈ b.succs ↔ ∃ addr ∈ b.staticTargets, r.blockAt? addr = some t
  /-- A likely branch has one patch block, which nothing else leads to: it holds the delay slot and
  goes to the target of the branch. The other successor is where the branch is not taken. -/
  likely : ∀ s b, s ≠ entrySlot → r.block? s = some b → b.endsInLikely = true →
    ∃ p c tr taken notTaken w, b.PatchOf c tr taken notTaken w ∧ r.block? p = some c ∧
      c.preds = [s] ∧ (∀ t, t ∈ c.succs ↔ r.blockAt? taken = some t) ∧
      (∀ t, t ∈ b.succs ↔ t = p ∨ r.blockAt? notTaken = some t) ∧
      ∀ t d, t ∈ b.succs → r.block? t = some d → d.isPatch = true → t = p

/-- A list in order with one member is that member alone. -/
theorem eq_singleton_of_sorted {l : List Slot} (hl : Sorted id l) (h : ∀ x, x ∈ l ↔ x = s) :
    l = [s] :=
  hl.ext (List.pairwise_singleton _ s) fun x => by rw [h, List.mem_singleton]

/-- A patched region with the edges of its code is the control flow of the guest, also once
dominators and merges are noted in it. -/
theorem Charted.exact (hc : Charted r []) (h : Patched K r) (hrooted : r.flowGraph.Rooted)
    (hsame : SameGraph r r') : Exact r' := by
  have hat : ∀ addr, r'.blockAt? addr = r.blockAt? addr := fun addr => by
    simp [blockAt?, hsame.byAddr]
  have hsuccs : ∀ s b, r'.block? s = some b → b.succs = r.succs s := fun s b hb => by
    rw [← hsame.succs, succs_of_block hb]
  have hpreds : ∀ s b, r'.block? s = some b → b.preds = r.preds s := fun s b hb => by
    rw [← hsame.preds, preds_of_block hb]
  constructor
  case reachable =>
    intro s b hb
    obtain ⟨a, ha, -⟩ := hsame.block hb
    rw [hsame.flowGraph]
    exact hrooted.reachable s (mem_nodes.2 ⟨a, ha⟩)
  case entry =>
    obtain ⟨b, hb, hbe⟩ := hsame.of_bare h.entry
    obtain ⟨f, hf⟩ := h.entered
    have hfirst := h.first f hf
    refine ⟨b, f, hb, entry_of_plain hbe, words_of_plain hbe, ?_, ?_, ?_⟩
    · rw [hpreds _ b hb]
      exact hrooted.preds_entry
    -- All successors of the entry are at the address of the region, so there is one.
    · rw [hsuccs _ b hb]
      refine eq_singleton_of_sorted (h.linked.sorted _) fun t => ⟨fun ht => ?_, fun ht => ht ▸ hf⟩
      exact Option.some.inj ((h.first t ht).symm.trans hfirst)
    · rw [hat, hsame.entryAddr]
      exact hfirst
  case at_iff =>
    intro addr s
    rw [hat]
    constructor
    · intro hs
      obtain ⟨c, hc, hguest, hce⟩ := h.linked.addr_guest addr s hs
      obtain ⟨b, hb, hbc⟩ := hsame.of_bare hc
      exact ⟨b, hb, (congrArg Block.isGuest hbc :).trans hguest, (entry_of_plain hbc).trans hce⟩
    · rintro ⟨b, hb, hguest, rfl⟩
      obtain ⟨a, ha, hba⟩ := hsame.of_block hb
      have hguest : a.isGuest = true := (congrArg Block.isGuest hba :).symm.trans hguest
      -- A guest block is not the synthetic entry.
      have hs : s ≠ entrySlot := by
        rintro rfl
        rw [h.entry, Option.some.injEq] at ha
        rw [← ha] at hguest
        cases hguest
      have hnone : a.patchTarget = none := by
        simpa [Block.isGuest, Block.isPatch] using (Bool.and_eq_true_iff.1 hguest).1
      rw [entry_of_plain hba]
      exact hc.indexed s a hs ha hnone
  case plain =>
    intro s b hs hb hlikely t
    obtain ⟨a, ha, hba⟩ := hsame.of_block hb
    have hlikely : a.endsInLikely = false := (congrArg Block.endsInLikely hba :).symm.trans hlikely
    have htargets : b.staticTargets = a.staticTargets := (congrArg Block.staticTargets hba :)
    rw [hsuccs s b hb, htargets]
    simp only [hat]
    exact hc.plain s a hs ha (fun h => by rw [hlikely] at h; cases h) t
  case likely =>
    intro s b hs hb hlikely
    obtain ⟨a, ha, hba⟩ := hsame.of_block hb
    obtain ⟨p, c, tr, taken, notTaken, w, hparts⟩ := hc.likely s a hs ha
      ((congrArg Block.endsInLikely hba :).symm.trans hlikely) List.not_mem_nil
    obtain ⟨d, hd, hdc⟩ := hsame.of_bare hparts.patch
    refine ⟨p, d, tr, taken, notTaken, w, hparts.toPatchOf.of_plain hba hdc, hd, ?_, fun t => ?_,
      fun t => ?_, fun t e ht he hpatch => ?_⟩
    · rw [hpreds p d hd]
      refine eq_singleton_of_sorted (h.linked.sorted_preds p) fun x => ?_
      rw [← h.linked.succ_iff, hparts.owner]
    · rw [hsuccs p d hd, hat]
      exact hparts.goes t
    · rw [hsuccs s b hb, hat]
      exact hparts.next t
    · -- The other successor comes from the guest.
      rw [hsuccs s b hb] at ht
      refine ((hparts.next t).1 ht).resolve_right fun hfound => ?_
      obtain ⟨g, hg, hguest, -⟩ := h.linked.addr_guest _ _ hfound
      obtain ⟨e', he', heg⟩ := hsame.of_bare hg
      rw [he, Option.some.injEq] at he'
      have hguest : e.isGuest = true := by
        rw [he']
        exact (congrArg Block.isGuest heg :).trans hguest
      simp [Block.isGuest, hpatch] at hguest

end HotRegion.Region
