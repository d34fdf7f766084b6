import HotRegion.Proofs.Analysis.Precision
import HotRegion.Proofs.Compile.Stages
import HotRegion.Proofs.Profile
import HotRegion.Proofs.Region.Exact
import HotRegion.Proofs.Region.Passage

/-!
# Preparing regions from interpreted code

On a profile that interpretation has filled no step of preparing a region breaks down. What can end
it is an entry that was not recorded, code that is not to be compiled, and mixed precision; otherwise
the region is ready for code generation.

## Key results

- `Region.shape_spec`, `Region.shape_eq_ok`: wiring, splitting, patching and pruning traced code
- `prepare_spec`: the outcomes of preparing a region
- `prepare_exact`: the blocks and edges of a prepared region are the control flow of the guest
-/

namespace HotRegion

open Isa
open Machine (State Trace wordAddr_succ)
open Region (Block Transfer entrySlot entryMark Patched Traced Ready)
open Ssa (ok_bind bind_eq_ok mapError_eq_ok forM_eq_ok check_bind_eq_ok throw_eq_error pure_eq_ok
  bind_eq_error forM_eq_error)

variable {r : Region} {K K' : UInt32 × UInt32 → Prop} {config : Config} {profile : Profile}
  {entry : UInt32} {traces : List Trace}

namespace Region

variable {s : Slot} {a b : Block}

/-! ## Code of blocks -/

/-- The word of a patch block is the delay slot of its branch. -/
theorem Block.PatchOf.mem_code {tr : Transfer} {taken notTaken w : UInt32}
    (h : a.PatchOf b tr taken notTaken w) : (w, b.entry) ∈ a.code := by
  obtain ⟨_, _, _, haddr, _⟩ := Block.transfer_eq_some h.transfer
  refine Block.mem_code.2 ⟨tr.index + 1, w, h.delay_word, ?_⟩
  rw [h.entry, haddr, wordAddr_succ]

/-- A block of code in `K`, or the patch block of one. -/
def Block.Coded (K : UInt32 × UInt32 → Prop) (b : Block) : Prop :=
  b.Guest K ∨ ∃ (a : Block) (tr : Transfer) (taken notTaken w : UInt32),
    a.Guest K ∧ a.PatchOf b tr taken notTaken w

/-- The instructions of a block were recorded. -/
theorem Block.Coded.code (h : b.Coded K) : ∀ p ∈ b.code, K p := by
  rcases h with h | ⟨a, tr, taken, notTaken, w, ha, hpatch⟩
  · exact h.code
  · intro p hp
    have hcode : b.code = [(w, b.entry)] := by simp [Block.code, hpatch.words]
    rw [hcode] at hp
    rw [List.mem_singleton.1 hp]
    exact ha.code _ hpatch.mem_code

/-- A block has an instruction. -/
theorem Block.Coded.words_ne_nil (h : b.Coded K) : b.words ≠ [] := by
  rcases h with h | ⟨a, tr, taken, notTaken, w, ha, hpatch⟩
  · exact h.shaped.ne_nil
  · simp [hpatch.words]

/-- The words of a block are code. -/
theorem Block.Coded.word (h : b.Coded K) {w : UInt32} (hw : w ∈ b.words) : ∃ addr, K (w, addr) := by
  obtain ⟨i, hi⟩ := List.getElem?_of_mem hw
  exact ⟨_, h.code _ (Block.mem_code.2 ⟨i, w, hi, rfl⟩)⟩

/-- A block starts at an address of code. -/
theorem Block.Coded.entry_word (h : b.Coded K) : ∃ w, K (w, b.entry) := by
  obtain ⟨w, rest, hwords⟩ := List.exists_cons_of_ne_nil h.words_ne_nil
  refine ⟨w, h.code _ (Block.mem_code.2 ⟨0, w, by rw [hwords]; rfl, ?_⟩)⟩
  rw [Machine.wordAddr_zero]

/-! ## Shaping -/

/-- Shaping traced code breaks down only at its last check, and the edges that are left are those of
the code. -/
theorem shape_eq (h : Traced K r) (hentered : ∃ f, f ∈ r.succs entrySlot) (config : Config) :
    ∃ r' splits patches pruned,
      r.shape config = (r'.checkPlausible >>= fun _ => .ok (r', splits, patches, pruned)) ∧
      Patched K r' ∧ AllPatched r' ∧ r'.flowGraph.Rooted ∧ r'.entryAddr = r.entryAddr ∧
      (Indexed r → Charted r' []) := by
  obtain ⟨r₁, hwire, h₁, hsame₁, hwired₁, hentered₁⟩ := h.wire
  obtain ⟨f, hf⟩ := hentered
  have hin₁ : ∃ f, f ∈ r₁.succs entrySlot := ⟨f, (hentered₁ f).2 hf⟩
  -- The region is plausible before any split, since its successors are found by their addresses.
  have hplausible : r₁.checkPlausible = .ok () :=
    (h₁.patched hin₁).checkPlausible fun s b hs hb => (h₁.guest s b hs hb).entry_ne
  obtain ⟨r₂, splits, hsplit, h₂, hin₂, hentry₂, hwired₂⟩ : ∃ r₂ splits,
      (if config.splitBlocks then r₁.splitOverlaps else pure (r₁, 0)) = .ok (r₂, splits) ∧
        Traced K r₂ ∧ (∃ f, f ∈ r₂.succs entrySlot) ∧ r₂.entryAddr = r₁.entryAddr ∧
        (Wired r₁ → Wired r₂) := by
    cases config.splitBlocks with
    | true => exact h₁.splitOverlaps hin₁
    | false => exact ⟨r₁, 0, rfl, h₁, hin₁, rfl, id⟩
  obtain ⟨r₃, patches, hpatch, h₃, hall₃, hentry₃⟩ := (h₂.patched hin₂).patchAll
  obtain ⟨r₄, pruned, hprune, h₄, hall₄, hrooted, hentry₄⟩ := h₃.prune hall₃
  -- The chart is read off the region after the patches, which pruning only makes smaller.
  have hcharted : Indexed r → Charted r₄ [] := by
    intro hindexed
    obtain ⟨r₃', _, hpatch', hl₃, hc₃⟩ := charted_patchAll (hwired₂ (hwired₁ hindexed)) h₂.toWoven
    rw [hpatch] at hpatch'
    cases hpatch'
    exact hc₃.prune hl₃ h₃.entry hprune
  refine ⟨r₄, splits, patches, pruned, ?_, h₄, hall₄, hrooted,
    hentry₄.trans (hentry₃.trans (hentry₂.trans hsame₁.entryAddr)), hcharted⟩
  -- The stages one after the other, with splits or without.
  unfold shape
  rw [hwire, ok_bind, hplausible, ok_bind]
  split at hsplit
  · next hcut =>
    rw [if_pos hcut, hsplit]
    simp only [ok_bind, hpatch, hprune]
    rfl
  · next hcut =>
    cases hsplit
    rw [if_neg hcut]
    change (r₁.patchAll >>= _) = _
    simp only [ok_bind, hpatch, hprune]
    rfl

/-- No step of shaping traced code breaks down, unless code stands at the address of the synthetic
entry. -/
theorem shape_spec (h : Traced K r) (hentered : ∃ f, f ∈ r.succs entrySlot)
    (hmark : ∀ p, K p → p.2 ≠ entryMark) (config : Config) :
    ∃ shaped, r.shape config = .ok shaped := by
  obtain ⟨r', splits, patches, pruned, hshape, hpatched, -⟩ := shape_eq h hentered config
  have hplausible : r'.checkPlausible = .ok () := by
    refine hpatched.checkPlausible fun s b hs hb hentry => ?_
    obtain ⟨w, hw⟩ := Block.Coded.entry_word (hpatched.block s b hs hb)
    exact hmark _ hw hentry
  exact ⟨_, by rw [hshape, hplausible, ok_bind]⟩

/-- What shaping makes of traced code. -/
theorem shape_eq_ok {shaped : Region × Nat × Nat × Nat} (h : Traced K r)
    (hentered : ∃ f, f ∈ r.succs entrySlot) (hshape : r.shape config = .ok shaped) :
    Patched K shaped.1 ∧ AllPatched shaped.1 ∧ shaped.1.flowGraph.Rooted ∧
      shaped.1.entryAddr = r.entryAddr ∧ (Indexed r → Charted shaped.1 []) := by
  obtain ⟨r', splits, patches, pruned, heq, hfacts⟩ := shape_eq h hentered config
  rw [heq, bind_eq_ok] at hshape
  obtain ⟨_, -, hshaped⟩ := hshape
  cases hshaped
  exact hfacts

/-! ## Checks -/

/-- An instruction passes if it can be compiled and is allowed. -/
theorem checkInstr_eq_ok {addr : UInt32} {insn : Instr} :
    checkInstr config addr insn = .ok () ↔
      insn.canCompile = true ∧ (config.allowFp = false → insn.isFp = false) := by
  unfold checkInstr
  cases insn.canCompile <;> cases config.allowFp <;> cases insn.isFp <;> simp

/-- What a block has to be to be compiled. -/
theorem checkBlock_eq_ok : checkBlock config b = .ok () ↔
    (∀ w ∈ b.words, (decode w).canCompile = true) ∧
    (config.allowFp = false → ∀ w ∈ b.words, (decode w).isFp = false) ∧
    (config.allowIndirectJumps = false → b.endsInJumpReg = false) := by
  have hwords : (b.code.forM fun p => checkInstr config p.2 (decode p.1)) = .ok () ↔
      (∀ w ∈ b.words, (decode w).canCompile = true) ∧
      (config.allowFp = false → ∀ w ∈ b.words, (decode w).isFp = false) := by
    -- An instruction is checked without regard to its address.
    have hmem : ∀ w, w ∈ b.words ↔ ∃ addr, (w, addr) ∈ b.code := by
      intro w
      simp only [Block.mem_code, Prod.mk.injEq]
      constructor
      · intro hw
        obtain ⟨i, hi⟩ := List.getElem?_of_mem hw
        exact ⟨_, i, w, hi, rfl, rfl⟩
      · rintro ⟨_, i, _, hi, rfl, -⟩
        exact List.mem_of_getElem? hi
    simp only [forM_eq_ok, checkInstr_eq_ok, hmem, Prod.forall]
    constructor
    · exact fun h => ⟨fun w ⟨addr, hw⟩ => (h w addr hw).1, fun hfp w ⟨addr, hw⟩ => (h w addr hw).2 hfp⟩
    · exact fun h w addr hw => ⟨h.1 w ⟨addr, hw⟩, fun hfp => h.2 hfp w ⟨addr, hw⟩⟩
  unfold checkBlock
  rw [check_bind_eq_ok, hwords, and_assoc]
  refine and_congr_right fun _ => and_congr_right fun _ => ?_
  unfold Block.endsInJumpReg
  cases b.transfer with
  | none => simp
  | some t =>
    by_cases hctl : t.control = .jumpReg <;> cases config.allowIndirectJumps <;> simp [hctl]

end Region

/-! ## Discovered code -/

/-- The traces of the region at `entry`, and the region that is left of their blocks after shaping. -/
def Discovers (config : Config) (profile : Profile) (entry : UInt32) (traces : List Trace)
    (r : Region) : Prop :=
  profile.discover entry config.maxRegionBlocks = some traces ∧
    ∃ found splits patches pruned, Region.ofTraces traces profile.successors = .ok found ∧
      found.shape config = .ok (r, splits, patches, pruned)

/-- Discovery and shaping have one outcome. -/
theorem Discovers.unique {traces' : List Trace} {r' : Region}
    (h : Discovers config profile entry traces r) (h' : Discovers config profile entry traces' r') :
    traces = traces' ∧ r = r' := by
  obtain ⟨hdiscover, found, _, _, _, hfound, hshape⟩ := h
  obtain ⟨hdiscover', found', _, _, _, hfound', hshape'⟩ := h'
  rw [hdiscover] at hdiscover'
  cases hdiscover'
  rw [hfound] at hfound'
  cases hfound'
  rw [hshape] at hshape'
  cases hshape'
  exact ⟨rfl, rfl⟩

/-- The configuration allows the instructions of the traces and the widths in the region. -/
structure Admits (config : Config) (traces : List Trace) (r : Region) : Prop where
  supported : ∀ t ∈ traces, ∀ w ∈ t.words, (decode w).canCompile = true
  fp : config.allowFp = false → ∀ t ∈ traces, ∀ w ∈ t.words, (decode w).isFp = false
  indirect : config.allowIndirectJumps = false →
    ∀ t ∈ traces, (Block.ofTrace t).endsInJumpReg = false
  precision : config.allowMixedPrecision = false →
    ∀ q, ¬ (r.UsesFpr q .single ∧ r.UsesFpr q .double)

/-- A configuration allows the blocks of a region exactly if it allows their traces. -/
theorem checkCompilable_eq_ok {found : Region}
    (hentry : found.bare? entrySlot = some Block.entryBlock)
    (hblocks : ∀ s b, s ≠ entrySlot → found.bare? s = some b → ∃ t ∈ traces, b.Holds t)
    (htraces : ∀ t ∈ traces, ∃ s b, s ≠ entrySlot ∧ found.bare? s = some b ∧ b.Holds t) :
    found.checkCompilable config = .ok () ↔
      (∀ t ∈ traces, ∀ w ∈ t.words, (decode w).canCompile = true) ∧
      (config.allowFp = false → ∀ t ∈ traces, ∀ w ∈ t.words, (decode w).isFp = false) ∧
      (config.allowIndirectJumps = false →
        ∀ t ∈ traces, (Block.ofTrace t).endsInJumpReg = false) := by
  have hiff : found.checkCompilable config = .ok () ↔
      ∀ t ∈ traces, Region.checkBlock config (Block.ofTrace t) = .ok () := by
    rw [Region.checkCompilable, forM_eq_ok]
    -- A block and its trace have the same code, and that is all that counts.
    have hsame : ∀ {a b : Block}, a.entry = b.entry → a.words = b.words →
        (Region.checkBlock config a = .ok () ↔ Region.checkBlock config b = .ok ()) := by
      intro a b hentry hwords
      have htransfer : a.transfer = b.transfer := by
        unfold Block.transfer Block.length
        rw [hentry, hwords]
      simp only [Region.checkBlock_eq_ok, Block.endsInJumpReg, hwords, htransfer]
    constructor
    · intro h t ht
      obtain ⟨s, b, -, hb, hholds⟩ := htraces t ht
      obtain ⟨a, ha, rfl⟩ := Region.exists_block_of_bare? hb
      exact (hsame hholds.entry hholds.words).1 (h (s, a) (Region.mem_blocks.2 ha))
    · rintro h ⟨s, b⟩ hb
      have hbare := Region.bare?_of_block (Region.mem_blocks.1 hb)
      by_cases hs : s = entrySlot
      · subst hs
        rw [hentry, Option.some.injEq] at hbare
        refine (hsame (congrArg Block.entry hbare) (congrArg Block.words hbare)).1 ?_
        rfl
      · obtain ⟨t, ht, hholds⟩ := hblocks s _ hs hbare
        exact (hsame hholds.entry hholds.words).2 (h t ht)
  rw [hiff]
  simp only [Region.checkBlock_eq_ok]
  constructor
  · exact fun h => ⟨fun t ht => (h t ht).1, fun hfp t ht => (h t ht).2.1 hfp,
      fun hind t ht => (h t ht).2.2 hind⟩
  · exact fun ⟨h₁, h₂, h₃⟩ t ht => ⟨h₁ t ht, fun hfp => h₂ hfp t ht, fun hind => h₃ hind t ht⟩

/-! ## Preparing -/

/-- Code that is not to be compiled is no fault of the back end. -/
theorem ne_backend_of_checkCompilable {found : Region} {error : CompileError}
    (h : found.checkCompilable config = .error error) (e : BackendError) : error ≠ .backend e := by
  obtain ⟨⟨s, b⟩, -, h⟩ := forM_eq_error h
  rcases bind_eq_error.1 h with h | ⟨_, -, h⟩
  · obtain ⟨⟨word, addr⟩, -, h⟩ := forM_eq_error h
    simp only [Region.checkInstr] at h
    split at h
    · cases h
      simp
    · split at h <;> cases h
      simp
  · split at h
    · split at h <;> cases h
      simp
    · cases h

/-- A check of precision is no failure of the backend. -/
theorem ne_backend_of_checkPrecision {error : CompileError} (h : r.checkPrecision config = .error error)
    (e : BackendError) : error ≠ .backend e := by
  unfold Region.checkPrecision at h
  split at h
  · cases h
  · split at h <;> cases h
    simp

/-- The code of a profile that a region may be made of. -/
def Profile.Compilable (profile : Profile) (p : UInt32 × UInt32) : Prop :=
  profile.Seen p ∧ (decode p.1).canCompile = true

/-- A region that is prepared for its entry, with all that code generation relies on. -/
structure Prepares (config : Config) (profile : Profile) (entry : UInt32) (p : Prepared) : Prop where
  prepare : prepare config profile entry = .ok p
  ready : Ready (fun i => profile.Compilable i ∧ p.region.HasCode i) config.countInstructions
    p.region p.usage
  entryAddr : p.region.entryAddr = entry
  exact : p.region.Exact
  unmarked : ∀ s b, s ≠ entrySlot → p.region.block? s = some b → b.isRegionEntry = false

/-- The code of a prepared region was recorded. -/
theorem Prepares.seen {p : Prepared} (h : Prepares config profile entry p) {i : UInt32 × UInt32}
    (hi : p.region.HasCode i) : profile.Seen i := by
  obtain ⟨s, b, hs, hb, hcode⟩ := hi
  exact (Block.Coded.code (h.ready.block s b hs hb) i hcode).1.1

/-- No block is recorded where no code is. -/
theorem Profile.Interpreted.trace?_eq_none (hp : profile.Interpreted)
    (hnot : ∀ i, profile.Seen i → i.2 ≠ entry) : profile.trace? entry = none := by
  cases ht : profile.trace? entry with
  | none => rfl
  | some t =>
    obtain ⟨rfl, hshaped⟩ := hp.trace_spec ht
    obtain ⟨w, rest, hwords⟩ := List.exists_cons_of_ne_nil hshaped.ne_nil
    refine absurd rfl (hnot (w, t.entry) ⟨t.entry, t, ht, Block.mem_code.2 ⟨0, w, ?_, ?_⟩⟩)
    · rw [hwords]
      rfl
    · rw [Machine.wordAddr_zero]
      rfl

/-- The traces from a recorded entry make a region, unless one of them starts at the address of the
synthetic entry. -/
theorem discovers_spec (hp : profile.Interpreted) (hmark : profile.trace? entryMark = none)
    (hseen : profile.trace? entry ≠ none) (config : Config) :
    ∃ traces found, profile.discover entry config.maxRegionBlocks = some traces ∧
      Region.ofTraces traces profile.successors = .ok found ∧ Traced profile.Seen found ∧
      (∃ f, f ∈ found.succs entrySlot) ∧ found.entryAddr = entry ∧ found.Indexed ∧
      (∀ s b, s ≠ entrySlot → found.bare? s = some b → ∃ t ∈ traces, b.Holds t) ∧
      ∀ t ∈ traces, ∃ s b, s ≠ entrySlot ∧ found.bare? s = some b ∧ b.Holds t := by
  obtain ⟨traces, hdiscover⟩ : ∃ traces, profile.discover entry config.maxRegionBlocks = some traces :=
    Option.ne_none_iff_exists'.1 (mt Profile.discover_eq_none_iff.1 hseen)
  obtain ⟨first, hfirst, hcollected⟩ := Profile.discover_spec hp hdiscover
  have hguest : ∀ t ∈ traces, (Block.ofTrace t).Guest profile.Seen := by
    intro t ht
    have hrecorded := hcollected.recorded t ht
    refine ⟨rfl, fun hentry => ?_, (hp.trace_spec hrecorded).2, fun i hi => ⟨t.entry, t, hrecorded, hi⟩⟩
    have hentry : t.entry = entryMark := hentry
    rw [hentry, hmark] at hrecorded
    cases hrecorded
  obtain ⟨rest, rfl⟩ : ∃ rest, traces = first :: rest := List.head?_eq_some_iff.1 hcollected.head
  obtain ⟨found, hfound, htraced, hentered, hentry, hindexed, hblocks, htraces⟩ :=
    Region.ofTraces_spec profile.successors hguest hcollected.entries
  exact ⟨_, found, hdiscover, hfound, htraced, hentered,
    hentry.trans (hp.trace_spec hfirst).1, hindexed, hblocks, htraces⟩

/-- Code that was checked is code to compile. -/
theorem Region.Traced.compilable {found : Region} (h : Traced profile.Seen found)
    (hblocks : ∀ s b, s ≠ entrySlot → found.bare? s = some b → ∃ t ∈ traces, b.Holds t)
    (hsupported : ∀ t ∈ traces, ∀ w ∈ t.words, (decode w).canCompile = true) :
    Traced profile.Compilable found := by
  refine ⟨h.toWoven.of_code fun s b hs hb i hi hi' => ⟨hi', ?_⟩, h.first⟩
  obtain ⟨t, ht, hholds⟩ := hblocks s b hs hb
  obtain ⟨j, w, hw, rfl⟩ := Block.mem_code.1 hi
  exact hsupported t ht w (hholds.words ▸ List.mem_of_getElem? hw)

/-- A region that was prepared from interpreted code, none of which starts at the address of the
synthetic entry, is ready for code generation. -/
theorem ready_of_prepare (hp : profile.Interpreted) (hmark : profile.trace? entryMark = none)
    {p : Prepared} (h : prepare config profile entry = .ok p) :
    Ready (fun i => profile.Compilable i ∧ p.region.HasCode i) config.countInstructions p.region
      p.usage ∧ p.region.entryAddr = entry ∧ p.region.Exact := by
  obtain ⟨staged⟩ := prepare_eq_ok h
  have hseen : profile.trace? entry ≠ none := fun hnone => by
    cases (Profile.discover_eq_none_iff.2 hnone).symm.trans staged.discover
  obtain ⟨traces, found, hdiscover, hfound, htraced, hentered, hentry, hindexed, hblocks, htraces⟩ :=
    discovers_spec hp hmark hseen config
  cases hdiscover.symm.trans staged.discover
  cases hfound.symm.trans staged.ofTraces
  obtain ⟨hsupported, -⟩ := (checkCompilable_eq_ok htraced.entry hblocks htraces).1 staged.compilable
  obtain ⟨hpatched, hall, hrooted, hentry', hcharted⟩ :=
    Region.shape_eq_ok (htraced.compilable hblocks hsupported) hentered staged.shape
  obtain ⟨placed, phis, hplaced, hsame, -, hready⟩ :=
    Region.ready_of_patched hpatched hall hrooted config.countInstructions
  rw [← staged.usage] at hplaced hready
  rw [staged.region, Except.ok.inj (staged.placePhis.symm.trans hplaced)]
  exact ⟨hready.tighten, hsame.entryAddr.trans (hentry'.trans hentry),
    (hcharted hindexed).exact hpatched hrooted hsame⟩

/-- The outcomes of preparing a region from interpreted code: an entry without a record is refused,
and so is code that the configuration does not admit; all other code is prepared. -/
theorem prepare_spec (hp : profile.Interpreted) (hmark : ∀ i, profile.Seen i → i.2 ≠ entryMark)
    (config : Config) (entry : UInt32) :
    profile.trace? entry = none ∧ prepare config profile entry = .error (.refused (.notProfiled entry)) ∨
    ∃ traces r, profile.trace? entry ≠ none ∧ Discovers config profile entry traces r ∧
      (¬ Admits config traces r ∧
          (∃ error, prepare config profile entry = .error (.refused error) ∧ ∀ e, error ≠ .backend e) ∨
        Admits config traces r ∧ ∃ p, Prepares config profile entry p) := by
  by_cases hseen : profile.trace? entry = none
  · refine .inl ⟨hseen, ?_⟩
    unfold prepare
    rw [Profile.discover_eq_none_iff.2 hseen]
  have hstart : profile.trace? entryMark = none := hp.trace?_eq_none hmark
  obtain ⟨traces, found, hdiscover, hfound, htraced, hentered, hentry, hindexed, hblocks, htraces⟩ :=
    discovers_spec hp hstart hseen config
  obtain ⟨⟨r, splits, patches, pruned⟩, hshape⟩ := Region.shape_spec htraced hentered hmark config
  refine .inr ⟨traces, r, hseen, ⟨hdiscover, found, splits, patches, pruned, hfound, hshape⟩, ?_⟩
  -- Every check may refuse the region. What passes all of them is prepared, and nothing else fails.
  have hcheck : found.checkCompilable config = .ok () ↔ _ :=
    checkCompilable_eq_ok htraced.entry hblocks htraces
  cases hcompilable : found.checkCompilable config with
  | error error =>
    refine .inl ⟨fun hadmits => ?_, error, ?_, ne_backend_of_checkCompilable hcompilable⟩
    · rw [hcheck.2 ⟨hadmits.supported, hadmits.fp, hadmits.indirect⟩] at hcompilable
      cases hcompilable
    · unfold prepare
      simp only [hdiscover, hfound, Failure.ofGraph, Except.mapError, ok_bind, hcompilable]
      rfl
  | ok _ =>
    obtain ⟨hsupported, hfp, hindirect⟩ := hcheck.1 hcompilable
    cases hprecision : r.computeDominators.computeFpUsage.checkPrecision config with
    | error error =>
      refine .inl ⟨fun hadmits => ?_, error, ?_, ne_backend_of_checkPrecision hprecision⟩
      · rw [Region.checkPrecision_eq_ok.2 hadmits.precision] at hprecision
        cases hprecision
      · unfold prepare
        simp only [hdiscover, hfound, Failure.ofGraph, Except.mapError, ok_bind, hcompilable, hshape,
          hprecision]
        rfl
    | ok _ =>
      refine .inr ⟨⟨hsupported, hfp, hindirect, Region.checkPrecision_eq_ok.1 hprecision⟩, ?_⟩
      obtain ⟨hpatched, hall, hrooted, -⟩ := Region.shape_eq_ok htraced hentered hshape
      obtain ⟨placed, phis, hplaced, -⟩ :=
        Region.ready_of_patched hpatched hall hrooted config.countInstructions
      obtain ⟨p, hprepare⟩ : ∃ p, prepare config profile entry = .ok p := by
        unfold prepare
        simp only [hdiscover, hfound, Failure.ofGraph, Except.mapError, ok_bind, hcompilable, hshape,
          hprecision, hplaced]
        exact ⟨_, rfl⟩
      obtain ⟨hready, hentry, hexact⟩ := ready_of_prepare hp hstart hprepare
      refine ⟨p, hprepare, hready, hentry, hexact, fun s b hs hb => ?_⟩
      obtain ⟨w, hcode⟩ := Block.Coded.entry_word (hready.block s b hs hb)
      simpa [Block.isRegionEntry] using hmark _ hcode.1.1

/-- What is prepared from interpreted code is ready for code generation. -/
theorem prepares_of_prepare (hp : profile.Interpreted) (hmark : ∀ i, profile.Seen i → i.2 ≠ entryMark)
    {p : Prepared} (h : prepare config profile entry = .ok p) : Prepares config profile entry p := by
  rcases prepare_spec hp hmark config entry with
    ⟨-, hrefused⟩ | ⟨_, _, -, -, ⟨-, _, hrefused, -⟩ | ⟨-, p', hprepares⟩⟩
  · rw [h] at hrefused
    cases hrefused
  · rw [h] at hrefused
    cases hrefused
  · have heq := hprepares.prepare
    rw [h] at heq
    cases heq
    exact hprepares

/-- The graph of a region that is prepared from interpreted code is the control flow of the guest
inside the region. -/
theorem prepare_exact (hp : profile.Interpreted) (hmark : ∀ i, profile.Seen i → i.2 ≠ entryMark)
    {p : Prepared} (hprepare : prepare config profile entry = .ok p) :
    p.region.entryAddr = entry ∧ p.region.Exact := by
  have h := prepares_of_prepare hp hmark hprepare
  exact ⟨h.entryAddr, h.exact⟩

/-- The code of a loop with the instruction before it, which sets its counter. A likely branch closes
the loop. -/
def Profile.skippingCode : List UInt32 :=
  [0x24080003, 0x25290001, 0x2508ffff, 0x5500fffd, 0x254a0001]

/-- A machine before that code. -/
def Profile.skippingStart : State :=
  .initial ((Machine.Memory.zeroed 12 (by decide)).loadWords 0x20 skippingCode) 0x20

/-- The machine when it comes to the start of the loop again. -/
def Profile.skippingAgain : State := (Machine.step 5 skippingStart).2

/-- The profile after two rounds. The loop is recorded twice, with the instruction before it and
without. -/
def Profile.skipping : Profile :=
  (empty.record ⟨0x20, skippingCode⟩ (Machine.step 5 skippingStart).2.pc).record
    ⟨0x24, skippingCode.tail⟩ (Machine.step 5 skippingAgain).2.pc

/-- The profile of the example comes from a run. -/
theorem Profile.interpreted_skipping : skipping.Interpreted :=
  (Interpreted.empty.step (by decide +kernel)).step (by decide +kernel)

/-- Nothing of the example is recorded at the address that marks the entry. -/
theorem Profile.unmarked_skipping (i : UInt32 × UInt32) (h : skipping.Seen i) :
    i.2 ≠ entryMark := by
  have hall : ((Block.ofTrace ⟨0x24, skippingCode.tail⟩).code ++
      (Block.ofTrace ⟨0x20, skippingCode⟩).code).all (·.2 != entryMark) = true := by decide
  have hmem : i ∈ (Block.ofTrace ⟨0x24, skippingCode.tail⟩).code ++
      (Block.ofTrace ⟨0x20, skippingCode⟩).code := by
    rcases seen_record h with hi | h
    · exact List.mem_append_left _ hi
    · exact List.mem_append_right _ ((seen_record h).resolve_right (not_seen_empty i))
  simpa using List.all_eq_true.1 hall i hmem

/-- The two records overlap, so the first is split, and the likely branch gets a patch block. The
graph of these four blocks is the control flow of the code. -/
theorem prepare_exact_skipping : ∃ p, prepare .standard .skipping 0x20 = .ok p ∧
    (p.info.blocks, p.info.splits, p.info.patches) = (4, 1, 1) ∧ p.region.entryAddr = 0x20 ∧
    p.region.Exact := by
  have hinfo : (prepare .standard .skipping 0x20 >>= fun p =>
      .ok (p.info.blocks, p.info.splits, p.info.patches)) = .ok (4, 1, 1) := by decide +kernel
  obtain ⟨p, hprepare, hcounts⟩ := bind_eq_ok.1 hinfo
  obtain ⟨hentry, hexact⟩ :=
    prepare_exact Profile.interpreted_skipping Profile.unmarked_skipping hprepare
  exact ⟨p, hprepare, Except.ok.inj hcounts, hentry, hexact⟩

end HotRegion
