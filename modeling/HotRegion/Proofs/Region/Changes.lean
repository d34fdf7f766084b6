import HotRegion.Proofs.Region.Patched
import HotRegion.Proofs.Ssa.Valid

/-!
# Sequences of changes

Whatever is done to a region, block by block and edge by edge, its graph stays linked: each edge is
kept at both ends, edges lead to blocks that are there, and so does the address table. A change
either fails or keeps `Linked`; nothing is asked of the region beyond that, so blocks may start
anywhere, the address of the synthetic entry included, and may start there more than once.

## Key results

- `Linked.addEdge`, `Linked.removeBlock`, `Linked.splitAt`, ...: a change that goes through keeps the
  graph linked, one lemma for each change
- `Change.linked` / `Change.linked_run`: so do one change and a run of changes
- `edges_symmetric`: the edges and addresses after any run of changes
-/

namespace HotRegion.Region

open Machine (Trace)

variable {r r' : Region} {s t : Slot} {b : Block} {addr : UInt32}

/-! ## Single changes -/

/-- A block that is given is there. -/
theorem block?_of_block (h : r.block s = .ok b) : r.block? s = some b := by
  unfold block at h
  split at h
  · rename_i c hc
    rw [hc, Except.ok.inj h]
  · cases h

namespace Linked

/-- A new edge is noted at both ends. -/
theorem addEdge (h : Linked r) (hok : r.addEdge s t = .ok r') : Linked r' := by
  obtain ⟨a, ha, hrest⟩ := Ssa.bind_eq_ok.1 hok
  obtain ⟨c, hc, -⟩ := Ssa.bind_eq_ok.1 hrest
  have ha := block?_of_block ha
  have hsame : SameBlocks r (r.setBlock s { a with succs := Flow.insert t a.succs }) :=
    sameBlocks_setBlock ha rfl
  obtain ⟨r₁, hok₁, h₁, -⟩ := addEdge_spec h ha (hsame.live.1 ⟨c, block?_of_block hc⟩)
  rw [hok, Except.ok.injEq] at hok₁
  rwa [hok₁]

/-- An edge is taken away at both ends. -/
theorem removeEdge (h : Linked r) (hok : r.removeEdge s t = .ok r') : Linked r' := by
  obtain ⟨a, ha, hrest⟩ := Ssa.bind_eq_ok.1 hok
  have ha := block?_of_block ha
  have hst : t ∈ r.succs s := by
    rw [succs_of_block ha, ← List.contains_iff_mem]
    by_cases hmem : a.succs.contains t = true
    · exact hmem
    · simp only [hmem] at hrest
      cases hrest
  obtain ⟨r₁, hok₁, h₁, -⟩ := removeEdge_spec h hst
  rw [hok, Except.ok.injEq] at hok₁
  rwa [hok₁]

/-- A new block has no edges to note. -/
theorem insertBlock (h : Linked r) (hb : b.Isolated) : Linked (r.insertBlock b).1 := by
  obtain ⟨r₁, t, heq, h₁, -⟩ := insertBlock_spec h hb
  rwa [heq]

/-- A block that may be removed has no edges to lose. -/
theorem removeBlock (h : Linked r) (hok : r.removeBlock s = .ok (r', b)) : Linked r' := by
  obtain ⟨a, ha, -⟩ := Ssa.bind_eq_ok.1 hok
  obtain ⟨r₁, c, hok₁, -, h₁, -⟩ := removeBlock_spec h (block?_of_block ha)
  rw [hok, Except.ok.injEq, Prod.mk.injEq] at hok₁
  rwa [hok₁.1]

/-- Wiring a block adds an edge or does nothing. -/
theorem wireBlock (h : Linked r) (hok : r.wireBlock s = .ok r') : Linked r' := by
  obtain ⟨a, ha, -⟩ := Ssa.bind_eq_ok.1 hok
  obtain ⟨r₁, hok₁, h₁, -⟩ := wireBlock_spec h (block?_of_block ha)
  rw [hok, Except.ok.injEq] at hok₁
  rwa [hok₁]

/-- Changes that keep the graph linked, one after the other. -/
theorem foldlM {α : Type} {f : Region → α → Except GraphError Region} {l : List α}
    (hf : ∀ r r' x, Linked r → f r x = .ok r' → Linked r') (h : Linked r)
    (hok : l.foldlM f r = .ok r') : Linked r' := by
  induction l generalizing r with
  | nil =>
    cases hok
    exact h
  | cons x l ih =>
    rw [List.foldlM_cons] at hok
    obtain ⟨r₁, hok₁, hrest⟩ := Ssa.bind_eq_ok.1 hok
    exact ih (hf r r₁ x h hok₁) hrest

/-- Blocks may be cut anywhere inside, also where the second half stands at the address of the
synthetic entry and gets no address of its own. -/
theorem splitAt (h : Linked r) (hok : r.splitAt s addr = .ok (r', t)) : Linked r' := by
  obtain ⟨a, ha, hrest⟩ := Ssa.bind_eq_ok.1 hok
  have ha := block?_of_block ha
  by_cases hguest : a.isGuest = true
  case neg =>
    simp only [Bool.not_eq_true] at hguest
    simp only [hguest] at hrest
    cases hrest
  cases hpos : a.position? addr with
  | none =>
    simp only [hguest, hpos] at hrest
    cases hrest
  | some i =>
    by_cases hle : addr ≤ a.entry
    case pos =>
      simp only [hguest, hpos, hle] at hrest
      cases hrest
    simp only [hguest, hpos, hle] at hrest
    -- First the edges of the block move to its second half, and then the halves are linked.
    have hhead : Linked (r.setBlock s (a.splitAt i).1) := linked_setBlock h ha rfl rfl rfl rfl
    have h₁ := hhead.insertBlock (b := (a.splitAt i).2) ⟨rfl, rfl⟩
    obtain ⟨r₂, hmove, hrest⟩ := Ssa.bind_eq_ok.1 hrest
    obtain ⟨r₃, hadd, hrest⟩ := Ssa.bind_eq_ok.1 hrest
    cases hrest
    have h₂ : Linked r₂ := by
      refine h₁.foldlM (fun r r' u hr hu => ?_) hmove
      obtain ⟨r₁, hremove, hu⟩ := Ssa.bind_eq_ok.1 hu
      exact (hr.removeEdge hremove).addEdge hu
    exact h₂.addEdge hadd

/-- Resolving an overlap that was found. -/
theorem splitOverlap {outer inner : Slot} (h : Linked r)
    (hfind : r.findOverlap = some (outer, inner)) (hok : r.splitOverlap outer inner = .ok r') :
    Linked r' := by
  obtain ⟨addr, b, i, ho⟩ := overlap_of_findOverlap h hfind
  obtain ⟨r₁, kept, -, hok₁, hresolved⟩ := splitOverlap_spec h ho
  rw [hok, Except.ok.injEq] at hok₁
  rw [hok₁]
  exact hresolved.linked

/-- Every round of splits keeps the links. -/
theorem splitOverlapsFrom {n m : Nat} (fuel : Nat) (h : Linked r)
    (hok : Region.splitOverlapsFrom fuel r n = .ok (r', m)) : Linked r' := by
  induction fuel generalizing r n with
  | zero =>
    cases hok
    exact h
  | succ fuel ih =>
    unfold Region.splitOverlapsFrom at hok
    split at hok
    · cases hok
      exact h
    · rename_i outer inner hfind
      obtain ⟨r₁, hok₁, hrest⟩ := Ssa.bind_eq_ok.1 hok
      exact ih (h.splitOverlap hfind hok₁) hrest

/-- A patch block is wired at both ends. -/
theorem patchLikely (h : Linked r) (hok : r.patchLikely s = .ok (r', t)) : Linked r' := by
  obtain ⟨a, ha, hrest⟩ := Ssa.bind_eq_ok.1 hok
  have ha := bare?_of_block (block?_of_block ha)
  split at hrest
  · rename_i index at' insn taken notTaken delay htr hlast
    obtain ⟨r₁, p, hok₁, hpatch⟩ := patchLikely_spec h ha ⟨htr, rfl, hlast⟩
    rw [hok, Except.ok.injEq, Prod.mk.injEq] at hok₁
    rw [hok₁.1]
    exact hpatch.relinked
  · cases hrest

/-- Every patch block is wired at both ends. -/
theorem patchAll {n : Nat} (h : Linked r) (hok : r.patchAll = .ok (r', n)) : Linked r' := by
  obtain ⟨r₁, hfold, hrest⟩ := Ssa.bind_eq_ok.1 hok
  cases hrest
  refine h.foldlM (fun r r' s hr hs => ?_) hfold
  obtain ⟨⟨r₂, p⟩, hpatch, hs⟩ := Ssa.bind_eq_ok.1 hs
  cases hs
  exact hr.patchLikely hpatch

/-- Pruning takes away blocks whose edges it has removed before. -/
theorem prune {n : Nat} (h : Linked r) (hok : r.prune = .ok (r', n)) : Linked r' := by
  obtain ⟨r₁, hfold, hrest⟩ := Ssa.bind_eq_ok.1 hok
  cases hrest
  refine h.foldlM (fun r r' s hr hs => ?_) hfold
  obtain ⟨⟨r₂, gone⟩, hremove, hs⟩ := Ssa.bind_eq_ok.1 hs
  cases hs
  exact hr.removeBlock hremove

end Linked

/-- The blocks of any traces form a linked region. -/
theorem linked_ofTraces {traces : List Trace} {indirect : UInt32 → List UInt32}
    (hok : ofTraces traces indirect = .ok r) : Linked r := by
  have hfill : ∀ (l : List Trace) (r : Region), Linked r → Linked (l.foldl (addTrace indirect) r) := by
    intro l
    induction l with
    | nil => exact fun r h => h
    | cons t l ih =>
      intro r h
      refine ih _ ?_
      unfold addTrace
      split
      · exact h
      · exact h.insertBlock ⟨rfl, rfl⟩
  have hfilled := fun entryAddr => hfill traces (new entryAddr) (linked_new entryAddr)
  unfold ofTraces at hok
  simp only at hok
  split at hok
  · exact (hfilled _).addEdge hok
  · cases hok
    exact hfilled _

/-! ## Runs of changes -/

/-- A change of a region. -/
inductive Change where
  /-- Puts in the block of a trace with the known targets of the register jump at its end. -/
  | insert (t : Trace) (targets : List UInt32)
  /-- Removes any block but the synthetic entry. -/
  | remove (s : Slot) (h : s ≠ entrySlot)
  | addEdge (source target : Slot)
  | removeEdge (source target : Slot)
  | wire (s : Slot)
  | splitAt (s : Slot) (addr : UInt32)
  | splitOverlaps
  | patchLikely (s : Slot)
  | patchAll
  | prune

namespace Change

/-- The region after the change. -/
def apply (r : Region) : Change → Except GraphError Region
  | insert t targets => .ok (r.insertBlock { Block.ofTrace t with indirectTargets := targets }).1
  | remove s _ => (·.1) <$> r.removeBlock s
  | addEdge s t => r.addEdge s t
  | removeEdge s t => r.removeEdge s t
  | wire s => r.wireBlock s
  | splitAt s addr => (·.1) <$> r.splitAt s addr
  | splitOverlaps => (·.1) <$> r.splitOverlaps
  | patchLikely s => (·.1) <$> r.patchLikely s
  | patchAll => (·.1) <$> r.patchAll
  | prune => (·.1) <$> r.prune

/-- The region after all changes, in order, unless one of them is not allowed. -/
def run (changes : List Change) (r : Region) : Except GraphError Region := changes.foldlM apply r

/-- A change succeeds if the operation does, whatever else that gives. -/
theorem exists_of_map_fst {α : Type} {x : Except GraphError (Region × α)}
    (h : (·.1) <$> x = .ok r') : ∃ a, x = .ok (r', a) := by
  cases x with
  | error e => cases h
  | ok p =>
    cases h
    exact ⟨p.2, rfl⟩

/-- A change that goes through keeps the graph linked. -/
theorem linked {c : Change} (h : Linked r) (hok : c.apply r = .ok r') : Linked r' := by
  cases c with
  | insert t targets =>
    cases hok
    exact h.insertBlock ⟨rfl, rfl⟩
  | remove s hs =>
    obtain ⟨b, hok⟩ := exists_of_map_fst hok
    exact h.removeBlock hok
  | addEdge s t => exact h.addEdge hok
  | removeEdge s t => exact h.removeEdge hok
  | wire s => exact h.wireBlock hok
  | splitAt s addr =>
    obtain ⟨t, hok⟩ := exists_of_map_fst hok
    exact h.splitAt hok
  | splitOverlaps =>
    obtain ⟨n, hok⟩ := exists_of_map_fst hok
    exact h.splitOverlapsFrom _ hok
  | patchLikely s =>
    obtain ⟨p, hok⟩ := exists_of_map_fst hok
    exact h.patchLikely hok
  | patchAll =>
    obtain ⟨n, hok⟩ := exists_of_map_fst hok
    exact h.patchAll hok
  | prune =>
    obtain ⟨n, hok⟩ := exists_of_map_fst hok
    exact h.prune hok

/-- A run of changes that goes through keeps the graph linked. -/
theorem linked_run {changes : List Change} (h : Linked r) (hok : run changes r = .ok r') :
    Linked r' :=
  h.foldlM (fun _ _ _ => linked) hok

end Change

/-- From the region with the synthetic entry alone, or from the blocks of any traces, whatever run of
changes goes through: an edge is kept at its source if and only if it is kept at its target, edges
join blocks that are there, and the address table leads from an address to a guest block that starts
there. -/
theorem edges_symmetric (start r : Region) (changes : List Change)
    (hstart : (∃ entryAddr, start = new entryAddr) ∨
      ∃ traces indirect, ofTraces traces indirect = .ok start)
    (hrun : Change.run changes start = .ok r) :
    (∀ s t a b, r.block? s = some a → r.block? t = some b → (t ∈ a.succs ↔ s ∈ b.preds)) ∧
      (∀ s a, r.block? s = some a → ∀ t, t ∈ a.succs ∨ t ∈ a.preds → ∃ b, r.block? t = some b) ∧
      ∀ addr s, (addr, s) ∈ r.byAddr →
        ∃ b, r.block? s = some b ∧ b.isGuest = true ∧ b.entry = addr := by
  have hlinked : Linked start := by
    rcases hstart with ⟨entryAddr, rfl⟩ | ⟨traces, indirect, hok⟩
    · exact linked_new entryAddr
    · exact linked_ofTraces hok
  have h := Change.linked_run hlinked hrun
  -- The invariant speaks of slots; here it is read off the blocks in them.
  refine ⟨fun s t a b ha hb => ?_, fun s a ha t ht => ?_, fun addr s hs => ?_⟩
  · rw [← succs_of_block ha, ← preds_of_block hb]
    exact h.succ_iff s t
  · rw [← succs_of_block ha, ← preds_of_block ha] at ht
    rcases ht with ht | ht
    · exact h.live s t ht
    · exact h.source_live ((h.succ_iff t s).2 ht)
  · obtain ⟨c, hc, hguest, hentry⟩ := h.addr_guest addr s ((mem_byAddr h.addr_sorted).1 hs)
    obtain ⟨b, hb, rfl⟩ := exists_block_of_bare? hc
    exact ⟨b, hb, hguest, hentry⟩

/-- A loop seen from the instruction before it and from its own start. -/
def loopTraces : List Trace :=
  [⟨0x100, [0x24080005, 0x2508ffff, 0x1500fffe, 0]⟩, ⟨0x104, [0x2508ffff, 0x1500fffe, 0]⟩]

/-- The region of a loop, after its blocks are wired, split and pruned. -/
theorem edges_symmetric_loop :
    ∃ start r, ofTraces loopTraces (fun _ => []) = .ok start ∧
      Change.run [.wire 1, .wire 2, .splitOverlaps, .prune] start = .ok r ∧
      ∀ s t a b, r.block? s = some a → r.block? t = some b → (t ∈ a.succs ↔ s ∈ b.preds) := by
  have hruns : (ofTraces loopTraces (fun _ => []) >>=
      Change.run [.wire 1, .wire 2, .splitOverlaps, .prune]).isOk = true := by decide +kernel
  cases hr : ofTraces loopTraces (fun _ => []) >>=
      Change.run [.wire 1, .wire 2, .splitOverlaps, .prune] with
  | error e =>
    rw [hr] at hruns
    cases hruns
  | ok r =>
    obtain ⟨start, hstart, hrun⟩ := Ssa.bind_eq_ok.1 hr
    exact ⟨start, r, hstart, hrun,
      (edges_symmetric start r _ (.inr ⟨loopTraces, fun _ => [], hstart⟩) hrun).1⟩

end HotRegion.Region
