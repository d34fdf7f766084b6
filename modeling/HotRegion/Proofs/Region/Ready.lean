import HotRegion.Proofs.Region.Patched
import HotRegion.Proofs.Region.Usage

/-!
# Regions ready for code generation

Dominators, floating-point usage and merges are noted in the blocks of a pruned region and change
neither its code nor its edges. `Ready` gathers what the code generator relies on: the shape of the
graph, the dominator tree, the usage of registers, and that a register is merged wherever two
definitions of it meet.

## Key results

- `placePhis_eq_ok` / `placePhis_spec`: merges are placed at the iterated frontiers of the definitions
- `ready_of_patched`: the last steps make a pruned region ready
-/

namespace HotRegion.Region

open Isa Analysis
open Ascending (Sorted)

variable {r r' r₁ r₂ : Region} {s t x y : Slot} {a b : Block} {u : Usage} {reg : Tracked}
  {K : UInt32 × UInt32 → Prop}

/-! ## Notes in blocks -/

/-- The part of a block that is its code and its place in the graph. -/
def Block.wired (b : Block) : Block :=
  { entry := b.entry, words := b.words, instrs := b.instrs, decoded := b.decoded,
    patchTarget := b.patchTarget, indirectTargets := b.indirectTargets, succs := b.succs,
    preds := b.preds }

/-- The part of a block that is its code. -/
def Block.plain (b : Block) : Block :=
  { entry := b.entry, words := b.words, instrs := b.instrs, decoded := b.decoded,
    patchTarget := b.patchTarget, indirectTargets := b.indirectTargets }

/-- Blocks that are the same but for links and analyses start at the same address. -/
theorem entry_of_plain (h : b.plain = a.plain) : b.entry = a.entry := (congrArg Block.entry h :)

/-- Blocks that are the same but for links and analyses have the same words. -/
theorem words_of_plain (h : b.plain = a.plain) : b.words = a.words := (congrArg Block.words h :)

/-- Blocks that are the same but for links have the same body. -/
theorem body_of_wired (h : b.wired = a.wired) : b.body = a.body := (congrArg Block.body h :)

/-- Blocks that are the same but for links and analyses patch the same target. -/
theorem patchTarget_of_plain (h : b.plain = a.plain) : b.patchTarget = a.patchTarget :=
  (congrArg Block.patchTarget h :)

/-- The graph is the same, and only the notes in its blocks differ. -/
structure SameGraph (r r' : Region) : Prop where
  wired : ∀ s, (r'.block? s).map Block.wired = (r.block? s).map Block.wired
  byAddr : r'.byAddr = r.byAddr
  entryAddr : r'.entryAddr = r.entryAddr

namespace SameGraph

/-- Regions with the same graph as a third one have the same. -/
theorem trans (h : SameGraph r r₁) (h' : SameGraph r₁ r₂) : SameGraph r r₂ :=
  ⟨fun s => (h'.wired s).trans (h.wired s), h'.byAddr.trans h.byAddr,
    h'.entryAddr.trans h.entryAddr⟩

/-- A block of the one region has its counterpart in the other. -/
theorem block (h : SameGraph r r') (hb : r'.block? s = some b) :
    ∃ a, r.block? s = some a ∧ b.wired = a.wired := by
  have heq := h.wired s
  rw [hb, Option.map_some] at heq
  obtain ⟨a, ha, hab⟩ := Option.map_eq_some_iff.1 heq.symm
  exact ⟨a, ha, hab.symm⟩

/-- Having the same graph goes both ways. -/
theorem symm (h : SameGraph r r') : SameGraph r' r :=
  ⟨fun s => (h.wired s).symm, h.byAddr.symm, h.entryAddr.symm⟩

/-- The same slots have blocks. -/
theorem live (h : SameGraph r r') : (∃ b, r'.block? s = some b) ↔ ∃ b, r.block? s = some b := by
  constructor
  · rintro ⟨b, hb⟩
    obtain ⟨a, ha, _⟩ := h.block hb
    exact ⟨a, ha⟩
  · rintro ⟨b, hb⟩
    obtain ⟨a, ha, _⟩ := h.symm.block hb
    exact ⟨a, ha⟩

/-- The same edges leave a slot. -/
theorem succs (h : SameGraph r r') (s : Slot) : r'.succs s = r.succs s := by
  cases hb : r'.block? s with
  | none =>
    have hnone : r.block? s = none := by
      have := h.wired s
      rw [hb] at this
      simpa using this.symm
    rw [succs_of_none hb, succs_of_none hnone]
  | some b =>
    obtain ⟨a, ha, hab⟩ := h.block hb
    rw [succs_of_block hb, succs_of_block ha]
    exact (congrArg Block.succs hab :)

/-- The same edges come into a slot. -/
theorem preds (h : SameGraph r r') (s : Slot) : r'.preds s = r.preds s := by
  cases hb : r'.block? s with
  | none =>
    have hnone : r.block? s = none := by
      have := h.wired s
      rw [hb] at this
      simpa using this.symm
    rw [preds_of_none hb, preds_of_none hnone]
  | some b =>
    obtain ⟨a, ha, hab⟩ := h.block hb
    rw [preds_of_block hb, preds_of_block ha]
    exact (congrArg Block.preds hab :)

/-- The graphs of the regions are one graph. -/
theorem flowGraph (h : SameGraph r r') : r'.flowGraph = r.flowGraph := by
  have hnodes : r'.flowGraph.nodes = r.flowGraph.nodes := by
    refine r'.sorted_slots.ext r.sorted_slots fun s => ?_
    exact mem_nodes.trans (h.live.trans mem_nodes.symm)
  have hsuccs : r'.flowGraph.succs = r.flowGraph.succs := funext h.succs
  have hpreds : r'.flowGraph.preds = r.flowGraph.preds := funext h.preds
  have heq : ∀ g g' : Flow.Graph, g.entry = g'.entry → g.nodes = g'.nodes →
      g.preds = g'.preds → g.succs = g'.succs → g = g' := by
    rintro ⟨⟩ ⟨⟩ rfl rfl rfl rfl
    rfl
  exact heq _ _ rfl hnodes hpreds hsuccs

end SameGraph

/-- Computing dominators notes the immediate one in each block. -/
theorem block?_computeDominators (r : Region) (s : Slot) :
    r.computeDominators.block? s =
      (r.block? s).map fun b => { b with idom := r.flowGraph.dominatorTree.idom s } := by
  simp only [computeDominators, block?, Array.getElem?_mapIdx]
  cases r.slots[s]? with
  | none => rfl
  | some b => cases b <;> rfl

/-- Computing dominators changes no edge. -/
theorem sameGraph_computeDominators (r : Region) : SameGraph r r.computeDominators where
  wired s := by
    rw [block?_computeDominators, Option.map_map]
    rfl
  byAddr := rfl
  entryAddr := rfl

/-- Computing the usage of floating-point registers notes it in each block. -/
theorem block?_computeFpUsage (r : Region) (s : Slot) :
    r.computeFpUsage.block? s =
      (r.block? s).map fun b => { b with fpTouched := b.bodyFpTouched } := by
  simp only [computeFpUsage, block?, Array.getElem?_map]
  cases r.slots[s]? with
  | none => rfl
  | some b => cases b <;> rfl

/-- Computing the usage of floating-point registers changes no edge. -/
theorem sameGraph_computeFpUsage (r : Region) : SameGraph r r.computeFpUsage where
  wired s := by
    rw [block?_computeFpUsage, Option.map_map]
    rfl
  byAddr := rfl
  entryAddr := rfl

/-! ## Merges -/

/-- The registers merged at the start of a slot; a free slot has none. -/
def phisAt (r : Region) (s : Slot) : List Tracked :=
  match r.block? s with
  | some b => b.phis
  | none => []

/-- What a step of placing merges changes. -/
structure Merged (r r' : Region) : Prop extends SameGraph r r' where
  tree : r'.tree = r.tree
  fpTouched : r'.fpTouched = r.fpTouched
  nodup : ∀ s, (r.phisAt s).Nodup → (r'.phisAt s).Nodup

/-- No merge at all. -/
theorem Merged.refl (r : Region) : Merged r r :=
  ⟨⟨fun _ => rfl, rfl, rfl⟩, rfl, rfl, fun _ h => h⟩

/-- Merges on top of merges. -/
theorem Merged.trans (h : Merged r r₁) (h' : Merged r₁ r₂) : Merged r r₂ :=
  ⟨h.toSameGraph.trans h'.toSameGraph, h'.tree.trans h.tree, h'.fpTouched.trans h.fpTouched,
    fun s hs => h'.nodup s (h.nodup s hs)⟩

/-- Merging a register in one block. -/
private theorem merged_addPhi (hb : r.block? s = some b) (reg : Tracked) :
    Merged r (r.setBlock s (b.addPhi reg)) ∧
      ∀ x reg', reg' ∈ (r.setBlock s (b.addPhi reg)).phisAt x ↔
        reg' ∈ r.phisAt x ∨ x = s ∧ reg' = reg := by
  have hblock := block?_setBlock hb (b.addPhi reg)
  have hwired : (b.addPhi reg).wired = b.wired := by
    unfold Block.addPhi
    split <;> rfl
  have hphis : (b.addPhi reg).phis = if reg ∈ b.phis then b.phis else b.phis ++ [reg] := by
    unfold Block.addPhi
    simp only [List.contains_iff_mem]
    split <;> rfl
  have hold : r.phisAt s = b.phis := by simp [phisAt, hb]
  have hnew : ∀ x, (r.setBlock s (b.addPhi reg)).phisAt x =
      if x = s then (b.addPhi reg).phis else r.phisAt x := by
    intro x
    unfold phisAt
    rw [hblock]
    by_cases hx : x = s <;> simp [hx]
  refine ⟨⟨⟨fun x => ?_, rfl, rfl⟩, rfl, rfl, fun x hx => ?_⟩, fun x reg' => ?_⟩
  · rw [hblock]
    by_cases hx : x = s
    · subst hx
      simp [hb, hwired]
    · simp [hx]
  · rw [hnew]
    split
    · rename_i hxs
      rw [hxs, hold] at hx
      rw [hphis]
      split
      · exact hx
      · rename_i hnot
        exact List.nodup_append.2 ⟨hx, by simp, fun c hc d hd => by
          rw [List.mem_singleton.1 hd]
          rintro rfl
          exact hnot hc⟩
    · exact hx
  · rw [hnew]
    by_cases hx : x = s
    · subst hx
      rw [hold, hphis]
      by_cases hreg : reg ∈ b.phis
      · simp only [if_pos hreg, if_true, true_and]
        grind
      · simp [hreg]
    · simp [hx]

/-- An empty slot gets no merge. -/
theorem mergeAt_of_none {placed : Region × Nat} (h : placed.1.block? s = none) (reg : Tracked) :
    mergeAt reg placed s = placed := by
  unfold mergeAt
  rw [h]

/-- A block gets a merge for a register once, and only then it counts. -/
theorem mergeAt_of_some {placed : Region × Nat} (h : placed.1.block? s = some b) (reg : Tracked) :
    mergeAt reg placed s = (placed.1.setBlock s (b.addPhi reg),
      if reg ∈ b.phis then placed.2 else placed.2 + 1) := by
  unfold mergeAt
  rw [h]
  simp only [List.contains_iff_mem]

/-- Merging a register in several blocks. -/
theorem merged_addPhis (placed : Region × Nat) (reg : Tracked) (slots : List Slot) :
    Merged placed.1 (addPhis placed reg slots).1 ∧
      ∀ x reg', reg' ∈ (addPhis placed reg slots).1.phisAt x ↔
        reg' ∈ placed.1.phisAt x ∨ reg' = reg ∧ x ∈ slots ∧ ∃ b, placed.1.block? x = some b := by
  unfold addPhis
  induction slots generalizing placed with
  | nil => exact ⟨.refl placed.1, by simp⟩
  | cons s slots ih =>
    rw [List.foldl_cons]
    cases hb : placed.1.block? s with
    | none =>
      rw [mergeAt_of_none hb]
      obtain ⟨hm, hphis⟩ := ih placed
      refine ⟨hm, fun x reg' => ?_⟩
      rw [hphis]
      grind
    | some b =>
      rw [mergeAt_of_some hb]
      obtain ⟨hm₁, hphis₁⟩ := merged_addPhi hb reg
      obtain ⟨hm, hphis⟩ := ih (placed.1.setBlock s (b.addPhi reg), _)
      refine ⟨hm₁.trans hm, fun x reg' => ?_⟩
      rw [hphis, hphis₁, hm₁.live]
      grind

/-- Merges are placed at the iterated frontier of every listed set of definitions. -/
theorem placePhis_eq_ok (u : Usage) {tree : Flow.DominatorTree} (htree : r.tree = some tree) :
    ∃ r' n, r.placePhis u = .ok (r', n) ∧ Merged r r' ∧
      ∀ x reg, reg ∈ r'.phisAt x ↔ reg ∈ r.phisAt x ∨ ∃ defs, (reg, defs) ∈ u.defs ∧
        x ∈ Flow.iteratedFrontier (tree.frontiers r.flowGraph) defs ∧
        ∃ b, r.block? x = some b := by
  let frontiers := tree.frontiers r.flowGraph
  -- One register after the other, where each adds to its own frontier.
  have hfold : ∀ (l : List (Tracked × List Slot)) (placed : Region × Nat),
      let placed' := l.foldl (fun placed p =>
        addPhis placed p.1 (Flow.iteratedFrontier frontiers p.2)) placed
      Merged placed.1 placed'.1 ∧ ∀ x reg, reg ∈ placed'.1.phisAt x ↔
        reg ∈ placed.1.phisAt x ∨ ∃ defs, (reg, defs) ∈ l ∧
          x ∈ Flow.iteratedFrontier frontiers defs ∧ ∃ b, placed.1.block? x = some b := by
    intro l
    induction l with
    | nil => exact fun placed => ⟨.refl placed.1, by simp⟩
    | cons p l ih =>
      intro placed
      obtain ⟨hm₁, hphis₁⟩ := merged_addPhis placed p.1 (Flow.iteratedFrontier frontiers p.2)
      obtain ⟨hm, hphis⟩ := ih (addPhis placed p.1 (Flow.iteratedFrontier frontiers p.2))
      refine ⟨hm₁.trans hm, fun x reg => ?_⟩
      rw [List.foldl_cons, hphis, hphis₁, hm₁.live]
      obtain ⟨reg₀, defs₀⟩ := p
      simp only [List.mem_cons, Prod.mk.injEq]
      grind
  obtain ⟨hm, hphis⟩ := hfold u.defs (r, 0)
  exact ⟨_, _, by unfold placePhis; rw [htree], hm, hphis⟩

/-- Merges are placed at the iterated frontiers of the definitions. -/
theorem placePhis_spec {tree : Flow.DominatorTree} (htree : r.tree = some tree) (hu : u.Ordered) :
    ∃ r' n, r.placePhis u = .ok (r', n) ∧ Merged r r' ∧
      ∀ x reg, reg ∈ r'.phisAt x ↔ reg ∈ r.phisAt x ∨ reg ∈ u.written ∧
        x ∈ Flow.iteratedFrontier (tree.frontiers r.flowGraph) (u.defBlocks reg) ∧
        ∃ b, r.block? x = some b := by
  obtain ⟨r', n, hok, hm, hphis⟩ := placePhis_eq_ok u htree
  refine ⟨r', n, hok, hm, fun x reg => (hphis x reg).trans (or_congr_right ?_)⟩
  constructor
  · rintro ⟨defs, hmem, hx⟩
    rw [hu.defBlocks_eq hmem]
    exact ⟨List.mem_map.2 ⟨_, hmem, rfl⟩, hx⟩
  · rintro ⟨hreg, hx⟩
    obtain ⟨⟨reg', defs⟩, hmem, rfl⟩ := List.mem_map.1 hreg
    rw [hu.defBlocks_eq hmem] at hx
    exact ⟨defs, hmem, hx⟩

/-! ## Ready regions -/

/-- What the code generator relies on. -/
structure Ready (K : UInt32 × UInt32 → Prop) (counting : Bool) (r : Region) (u : Usage) :
    Prop where
  rooted : r.flowGraph.Rooted
  tree : r.tree = some r.flowGraph.dominatorTree
  entry : ∃ b, r.block? entrySlot = some b ∧ b.entry = entryMark ∧ b.words = [] ∧
    b.patchTarget = none
  first : ∃ f b, r.firstBlock? = some f ∧ (∀ t, t ∈ r.succs entrySlot ↔ t = f) ∧
    r.block? f = some b ∧ b.Guest K ∧ b.entry = r.entryAddr
  block : ∀ s b, s ≠ entrySlot → r.block? s = some b →
    b.Guest K ∨ ∃ (a : Block) (tr : Transfer) (taken notTaken w : UInt32),
      a.Guest K ∧ a.PatchOf b tr taken notTaken w
  edge : ∀ s t a b, s ≠ entrySlot → t ∈ r.succs s → r.block? s = some a → r.block? t = some b →
    b.patchTarget = none ∧ b.entry ∈ a.staticTargets ∨
      a.Guest K ∧ ∃ tr taken notTaken w, a.PatchOf b tr taken notTaken w
  patched : ∀ s a, s ≠ entrySlot → r.block? s = some a → a.patchTarget = none →
    a.endsInLikely = true → ∃ p b tr taken notTaken w, p ∈ r.succs s ∧ r.block? p = some b ∧
      a.PatchOf b tr taken notTaken w
  usage : u.Describes r counting
  phis_nodup : ∀ s, (r.phisAt s).Nodup
  phis_written : ∀ s, ∀ reg ∈ r.phisAt s, reg ∈ u.written
  phis_closed : ∀ reg x y, (x ∈ u.defBlocks reg ∨ reg ∈ r.phisAt x) →
    y ∈ Flow.frontierOf (r.flowGraph.dominatorTree.frontiers r.flowGraph) x → reg ∈ r.phisAt y

/-- What a block is made of carries over between blocks with the same code. -/
theorem Block.Guest.of_code (h : a.Guest K) (hentry : b.entry = a.entry) (hwords : b.words = a.words)
    (hpatch : b.patchTarget = a.patchTarget) : b.Guest K := by
  refine ⟨hpatch.trans h.not_patch, hentry ▸ h.entry_ne, ⟨hwords ▸ h.shaped.ne_nil, ?_⟩, ?_⟩
  · rw [hwords]
    exact h.shaped.position
  · have hcode : b.code = a.code := by simp [Block.code, hentry, hwords]
    rw [hcode]
    exact h.code

/-- A guest block stays one when merges and analyses are noted. -/
theorem Block.Guest.of_plain (h : a.Guest K) (hab : b.plain = a.plain) : b.Guest K :=
  h.of_code (entry_of_plain hab) (words_of_plain hab) (patchTarget_of_plain hab)

/-- A patch block stays one when merges and analyses are noted. -/
theorem Block.PatchOf.of_plain {a' b' : Block} {tr : Transfer} {taken notTaken w : UInt32}
    (h : a.PatchOf b tr taken notTaken w) (ha : a'.plain = a.plain) (hb : b'.plain = b.plain) :
    a'.PatchOf b' tr taken notTaken w := by
  have htr : a'.transfer = a.transfer := (congrArg Block.transfer ha :)
  exact ⟨⟨htr.trans h.transfer, h.control, words_of_plain ha ▸ h.delay⟩,
    (entry_of_plain hb).trans h.entry, (words_of_plain hb).trans h.words,
    (patchTarget_of_plain hb).trans h.target⟩

namespace SameGraph

/-- A block of a region with the same graph is a block of the first one. -/
theorem of_block (h : SameGraph r r') (hb : r'.block? s = some b) :
    ∃ a, r.bare? s = some a ∧ b.plain = a.plain := by
  obtain ⟨a, ha, hab⟩ := h.block hb
  exact ⟨a.bare, bare?_of_block ha, (congrArg Block.plain hab :)⟩

/-- A block of the first region is in one with the same graph. -/
theorem of_bare (h : SameGraph r r') (ha : r.bare? s = some a) :
    ∃ b, r'.block? s = some b ∧ b.plain = a.plain := by
  obtain ⟨a₀, ha₀, rfl⟩ := exists_block_of_bare? ha
  obtain ⟨b, hb, hba⟩ := h.symm.block ha₀
  exact ⟨b, hb, (congrArg Block.plain hba.symm :)⟩

/-- The region is entered at the block at its entry address, which comes from the guest. -/
theorem first (hsame : SameGraph r r') (h : Patched K r) :
    ∃ f b, r'.firstBlock? = some f ∧ (∀ t, t ∈ r'.succs entrySlot ↔ t = f) ∧
      r'.block? f = some b ∧ b.Guest K ∧ b.entry = r'.entryAddr := by
  obtain ⟨f, hf⟩ := h.entered
  have hfirst := h.first f hf
  obtain ⟨c, hc, hcguest, hce⟩ := h.linked.addr_guest _ _ hfirst
  obtain ⟨b, hb, hbc⟩ := hsame.of_bare hc
  refine ⟨f, b, ?_, fun t => ?_, hb, ?_, ?_⟩
  · simpa [firstBlock?, blockAt?, hsame.byAddr, hsame.entryAddr] using hfirst
  · rw [hsame.succs]
    constructor
    · intro ht
      exact Option.some.inj ((h.first t ht).symm.trans hfirst)
    · rintro rfl
      exact hf
  · -- The table of addresses holds no patch block.
    rcases h.block f c (h.blockAt?_ne_entry hfirst) hc with hg | ⟨_, _, _, _, _, _, hp⟩
    · exact hg.of_plain hbc
    · simp [Block.isGuest, Block.isPatch, hp.target] at hcguest
  · rw [hsame.entryAddr, ← hce]
    exact entry_of_plain hbc

/-- Every block but the entry is a guest block or the patch block of one. -/
theorem origin (hsame : SameGraph r r') (h : Patched K r) (hs : s ≠ entrySlot)
    (hb : r'.block? s = some b) :
    b.Guest K ∨ ∃ (a : Block) (tr : Transfer) (taken notTaken w : UInt32),
      a.Guest K ∧ a.PatchOf b tr taken notTaken w := by
  obtain ⟨b₀, hb₀, hbb₀⟩ := hsame.of_block hb
  rcases h.block s b₀ hs hb₀ with hg | ⟨a, tr, taken, notTaken, w, ha, hp⟩
  · exact .inl (hg.of_plain hbb₀)
  · exact .inr ⟨a, tr, taken, notTaken, w, ha, hp.of_plain rfl hbb₀⟩

/-- An edge goes to an address that the source may go on at, or to a patch block. -/
theorem edge (hsame : SameGraph r r') (h : Patched K r) (hs : s ≠ entrySlot)
    (hst : t ∈ r'.succs s) (ha : r'.block? s = some a) (hb : r'.block? t = some b) :
    b.patchTarget = none ∧ b.entry ∈ a.staticTargets ∨
      a.Guest K ∧ ∃ tr taken notTaken w, a.PatchOf b tr taken notTaken w := by
  obtain ⟨a₀, ha₀, haa₀⟩ := hsame.of_block ha
  obtain ⟨b₀, hb₀, hbb₀⟩ := hsame.of_block hb
  rw [hsame.succs] at hst
  rcases h.edge s t _ _ hs hst ha₀ hb₀ with ⟨hnone, htarget⟩ | ⟨hg, tr, taken, notTaken, w, hp⟩
  · have htargets : a.staticTargets = a₀.staticTargets := (congrArg Block.staticTargets haa₀ :)
    refine .inl ⟨(patchTarget_of_plain hbb₀).trans hnone, ?_⟩
    rw [entry_of_plain hbb₀, htargets]
    exact htarget
  · exact .inr ⟨hg.of_plain haa₀, tr, taken, notTaken, w, hp.of_plain haa₀ hbb₀⟩

/-- A likely branch has its patch block. -/
theorem patched (hsame : SameGraph r r') (hall : AllPatched r) (hs : s ≠ entrySlot)
    (ha : r'.block? s = some a) (hnone : a.patchTarget = none) (hlikely : a.endsInLikely = true) :
    ∃ p b tr taken notTaken w, p ∈ r'.succs s ∧ r'.block? p = some b ∧
      a.PatchOf b tr taken notTaken w := by
  obtain ⟨a₀, ha₀, haa₀⟩ := hsame.of_block ha
  obtain ⟨p, c, tr, taken, notTaken, w, hsp, hc, hp⟩ := hall s a₀ hs ha₀
    ((patchTarget_of_plain haa₀).symm.trans hnone)
    ((congrArg Block.endsInLikely haa₀ :).symm.trans hlikely)
  obtain ⟨b, hb, hbc⟩ := hsame.of_bare hc
  rw [← hsame.succs] at hsp
  exact ⟨p, b, tr, taken, notTaken, w, hsp, hb, hp.of_plain haa₀ hbc⟩

end SameGraph

/-- Merges do not change what the blocks read and write. -/
theorem Merged.describes {counting : Bool} (hm : Merged r r') (hu : u.Describes r counting) :
    u.Describes r' counting where
  ordered := hu.ordered
  defs x reg := by
    rw [hu.defs, hm.fpTouched]
    constructor
    · rintro ⟨a, ha, hdef⟩
      obtain ⟨b, hb, hab⟩ := hm.toSameGraph.symm.block ha
      rw [Block.instructionCount, body_of_wired hab] at hdef
      exact ⟨b, hb, hdef⟩
    · rintro ⟨b, hb, hdef⟩
      obtain ⟨a, ha, hba⟩ := hm.toSameGraph.block hb
      rw [Block.instructionCount, body_of_wired hba] at hdef
      exact ⟨a, ha, hdef⟩
  uses s b hb insn hi reg hreg := by
    obtain ⟨a, ha, hba⟩ := hm.toSameGraph.block hb
    rw [hm.fpTouched] at hreg
    exact hu.uses s a ha insn (body_of_wired hba ▸ hi) reg hreg
  written := hu.written
  counted := hu.counted
  home reg hreg := by
    rw [hm.fpTouched]
    exact hu.home reg hreg

/-- No block has a merge before they are placed. -/
theorem Patched.phisAt_eq_nil (h : Patched K r) (x : Slot) :
    r.computeDominators.computeFpUsage.phisAt x = [] := by
  unfold phisAt
  cases hb : r.computeDominators.computeFpUsage.block? x with
  | none => rfl
  | some b =>
    rw [block?_computeFpUsage, block?_computeDominators, Option.map_map] at hb
    obtain ⟨a, ha, rfl⟩ := Option.map_eq_some_iff.1 hb
    exact h.no_phis x a.bare (bare?_of_block ha)

/-- Dominators, floating-point usage and merges make a pruned region ready. -/
theorem ready_of_patched (h : Patched K r) (hall : AllPatched r) (hrooted : r.flowGraph.Rooted)
    (counting : Bool) :
    ∃ r' n,
      let r₁ := r.computeDominators.computeFpUsage
      r₁.placePhis (Usage.collect r₁ counting) = .ok (r', n) ∧ SameGraph r r' ∧
        r'.fpTouched = r₁.fpTouched ∧ Ready K counting r' (Usage.collect r₁ counting) := by
  let r₁ := r.computeDominators.computeFpUsage
  let u := Usage.collect r₁ counting
  have hsame₁ : SameGraph r r₁ :=
    (sameGraph_computeDominators r).trans (sameGraph_computeFpUsage _)
  have hu : u.Describes r₁ counting := Usage.describes_collect r₁ counting
  have htree : r₁.tree = some r.flowGraph.dominatorTree := rfl
  obtain ⟨r', n, hok, hm, hplaced⟩ := placePhis_spec htree hu.ordered
  have hsame : SameGraph r r' := hsame₁.trans hm.toSameGraph
  have hgraph : r'.flowGraph = r.flowGraph := hsame.flowGraph
  let frontiers := r.flowGraph.dominatorTree.frontiers r.flowGraph
  have hphis : ∀ x reg, reg ∈ r'.phisAt x ↔ reg ∈ u.written ∧
      x ∈ Flow.iteratedFrontier frontiers (u.defBlocks reg) ∧ ∃ b, r.block? x = some b := by
    intro x reg
    rw [hplaced, h.phisAt_eq_nil, hsame₁.flowGraph, hsame₁.live]
    simp [frontiers]
  have hkeys := Flow.keys_frontiers r.flowGraph.dominatorTree r.flowGraph
  refine ⟨r', n, hok, hsame, hm.fpTouched, ?_⟩
  constructor
  case rooted => exact hgraph ▸ hrooted
  case tree =>
    rw [hm.tree, hgraph]
    exact htree
  case entry =>
    obtain ⟨b, hb, hbe⟩ := hsame.of_bare h.entry
    exact ⟨b, hb, entry_of_plain hbe, words_of_plain hbe, patchTarget_of_plain hbe⟩
  case first => exact hsame.first h
  case block => exact fun s b hs hb => hsame.origin h hs hb
  case edge => exact fun s t a b hs hst ha hb => hsame.edge h hs hst ha hb
  case patched => exact fun s a hs ha hnone hlikely => hsame.patched hall hs ha hnone hlikely
  case usage => exact hm.describes hu
  case phis_nodup =>
    intro s
    refine hm.nodup s ?_
    rw [h.phisAt_eq_nil]
    exact List.nodup_nil
  case phis_written => exact fun s reg hreg => ((hphis s reg).1 hreg).1
  case phis_closed =>
    intro reg x y hx hy
    rw [hgraph] at hy
    have hmem : ∀ {z w}, w ∈ Flow.frontierOf frontiers z → w ∈ r.flowGraph.nodes := fun hw =>
      (Flow.mem_nodes_of_mem_frontierOf hw).1
    -- An iterated frontier holds the frontiers of the definitions and of its own members.
    refine (hphis y reg).2 ⟨?_, ?_, mem_nodes.1 (hmem hy)⟩
    · rcases hx with hx | hx
      · exact hu.ordered.mem_written.2 ⟨x, hx⟩
      · exact ((hphis x reg).1 hx).1
    · refine Flow.mem_iteratedFrontier_of_mem (hkeys ▸ hrooted.sorted)
        (fun z w hw => hkeys ▸ hmem hw) ?_ hy
      rcases hx with hx | hx
      · exact .inl hx
      · exact .inr ((hphis x reg).1 hx).2.1

/-! ## The code of a region -/

/-- A word with its address is an instruction of a block of the region. -/
def HasCode (r : Region) (p : UInt32 × UInt32) : Prop :=
  ∃ s b, s ≠ entrySlot ∧ r.block? s = some b ∧ p ∈ b.code

/-- A patch block of a ready region has its branch in the region too, so nothing but the code of the
region counts. -/
theorem Ready.tighten {counting : Bool} (h : Ready K counting r u) :
    Ready (fun p => K p ∧ r.HasCode p) counting r u := by
  have hguest : ∀ s b, s ≠ entrySlot → r.block? s = some b → b.Guest K →
      b.Guest fun p => K p ∧ r.HasCode p := fun s b hs hb hg =>
    ⟨hg.not_patch, hg.entry_ne, hg.shaped, fun p hp => ⟨hg.code p hp, s, b, hs, hb, hp⟩⟩
  obtain ⟨f, c, hfirst, hsuccs, hc, hcguest, hentry⟩ := h.first
  have hf : f ≠ entrySlot := h.rooted.ne_entry ((hsuccs f).2 rfl)
  refine ⟨h.rooted, h.tree, h.entry, ⟨f, c, hfirst, hsuccs, hc, hguest f c hf hc hcguest, hentry⟩,
    fun s b hs hb => ?_, fun s t a b hs hst ha hb => ?_, h.patched, h.usage, h.phis_nodup,
    h.phis_written, h.phis_closed⟩
  · rcases h.block s b hs hb with hg | ⟨_, _, _, _, _, _, hp⟩
    · exact .inl (hguest s b hs hb hg)
    -- The block is reached from somewhere, and that can only be its branch.
    · obtain ⟨l, hpath⟩ := h.rooted.reachable s (mem_nodes.2 ⟨b, hb⟩)
      cases hpath with
      | refl => exact absurd rfl hs
      | step hprev hedge =>
        rename_i x l
        by_cases hx : x = entrySlot
        · subst hx
          obtain rfl := (hsuccs s).1 hedge
          rw [hc, Option.some.injEq] at hb
          have hnone := hcguest.not_patch
          rw [hb, hp.target] at hnone
          cases hnone
        · obtain ⟨a, ha⟩ := mem_nodes.1 (h.rooted.source_mem x s hedge)
          rcases h.edge x s a b hx hedge ha hb with ⟨hnone, -⟩ | ⟨ha', tr, taken, notTaken, w, hp'⟩
          · rw [hp.target] at hnone
            cases hnone
          · exact .inr ⟨a, tr, taken, notTaken, w, hguest x a hx ha ha', hp'⟩
  · refine (h.edge s t a b hs hst ha hb).imp_right fun ⟨ha', hp⟩ => ⟨hguest s a hs ha ha', hp⟩

end HotRegion.Region
