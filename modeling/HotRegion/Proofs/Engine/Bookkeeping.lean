import HotRegion.Proofs.Ascending
import HotRegion.Proofs.Engine.Rounds
import Mathlib

/-!
# Bookkeeping of an engine

The regions, the failed entries and the counters of an engine change on different paths: a region
is built, takes the place of another one, pushes one out or fails, and a run of a region is counted
under its exit. `Engine.Kept` says how they fit together, for an engine that a client may or may not
have told to build regions itself.

## Key results

- `Cache.Sound`: cached entries are distinct, no more than the capacity, and none of them failed
- `Engine.Kept.build`, `Engine.Kept.chain`, `Engine.Kept.learn`: the steps of an engine keep its
  books
- `Engine.Kept.summary`: what a run counts
- `Engine.books_agree`: the books of every engine after every sequence of calls
-/

namespace HotRegion

open Machine (State)
open Ssa (ExitReason bind_eq_ok)

/-! ## The cache -/

namespace Cache

variable {c c' : Cache} {r : Compiled} {addr : UInt32} {error : CompileError}

/-- Cached entries are distinct, no more than the capacity, and none of them failed. -/
structure Sound (c : Cache) : Prop where
  nodup : c.entries.Nodup
  size_le : c.size ≤ c.capacity
  sorted : Ascending.Sorted (·.1.toNat) c.failed
  disjoint : ∀ p ∈ c.failed, p.1 ∉ c.entries

/-- An empty cache is sound. -/
theorem sound_new (capacity : Nat) : (new capacity).Sound where
  nodup := List.nodup_nil
  size_le := Nat.zero_le _
  sorted := List.Pairwise.nil
  disjoint _ hp := absurd hp List.not_mem_nil

/-- The cache contains the addresses that its regions are entered at. -/
theorem contains_iff : c.contains addr = true ↔ addr ∈ c.entries := by simp [contains]

/-- An address has failed if it is marked with an error. -/
theorem isFailed_iff (h : Ascending.Sorted (·.1.toNat) c.failed) :
    c.isFailed addr = true ↔ ∃ error, (addr, error) ∈ c.failed := by
  simp only [isFailed, failure?, Option.isSome_iff_exists]
  exact exists_congr fun error => Ascending.lookup_eq_some_iff h

/-- The other regions are those with other entries. -/
theorem mem_others : r ∈ c.others addr ↔ r ∈ c.regions ∧ r.entry ≠ addr := by
  simp [others, List.mem_filter]

/-- All regions are others for an address that has none. -/
theorem others_eq_self (h : addr ∉ c.entries) : c.others addr = c.regions :=
  List.filter_eq_self.2 fun r hr => by
    simpa using fun heq : r.entry = addr => h (heq ▸ List.mem_map_of_mem hr)

/-- The entries of the other regions are the other entries. -/
theorem map_entry_others : (c.others addr).map (·.entry) = c.entries.filter (· != addr) := by
  simp [others, entries, List.filter_map, Function.comp_def]

/-- Using a region only moves it to the front. -/
theorem use?_perm (h : c.Sound) (huse : c.use? addr = some (r, c')) :
    r.entry = addr ∧ c'.regions.Perm c.regions ∧ c'.failed = c.failed ∧
      c'.capacity = c.capacity := by
  obtain ⟨r', hfind, heq⟩ := Option.map_eq_some_iff.1 huse
  cases heq
  have hentry : r.entry = addr := by simpa using List.find?_some hfind
  refine ⟨hentry, ?_, rfl, rfl⟩
  obtain ⟨before, after, hsplit⟩ := List.append_of_mem (List.mem_of_find?_eq_some hfind)
  have hnodup := h.nodup
  simp only [entries, hsplit, List.map_append, List.map_cons, List.nodup_append,
    List.nodup_cons] at hnodup
  obtain ⟨-, ⟨hafter, -⟩, hbefore⟩ := hnodup
  -- No other region has this entry, so filtering takes out the one that is used.
  have hothers : c.others addr = before ++ after := by
    have hkeep : ∀ l : List Compiled, (∀ x ∈ l, x.entry ≠ addr) →
        l.filter (·.entry != addr) = l :=
      fun l hl => List.filter_eq_self.2 fun x hx => by simpa using hl x hx
    rw [others, hsplit, List.filter_append, List.filter_cons_of_neg (by simp [hentry]),
      hkeep before, hkeep after]
    · intro x hx heq
      exact hafter (by rw [hentry, ← heq]; exact List.mem_map_of_mem hx)
    · intro x hx heq
      exact hbefore x.entry (List.mem_map_of_mem hx) r.entry List.mem_cons_self
        (heq.trans hentry.symm)
  change (r :: c.others addr).Perm c.regions
  rw [hothers, hsplit]
  exact List.perm_middle.symm

/-- Using a region brings it to the front and loses nothing. -/
theorem Sound.use (h : c.Sound) (huse : c.use? addr = some (r, c')) : c'.Sound := by
  obtain ⟨-, hperm, hfailed, hcap⟩ := use?_perm h huse
  have hentries : c'.entries.Perm c.entries := hperm.map _
  refine ⟨hentries.nodup_iff.2 h.nodup, ?_, hfailed ▸ h.sorted, ?_⟩
  · rw [size, hperm.length_eq, hcap]
    exact h.size_le
  · intro p hp hmem
    exact h.disjoint p (hfailed ▸ hp) (hentries.mem_iff.1 hmem)

/-- Addresses that are those of regions, but for `entry`, are not marked as failed once the mark of
`entry` is taken away. -/
private theorem Sound.not_mem_unmarked (h : c.Sound) {entry : UInt32} {l : List UInt32}
    (hl : ∀ x ∈ l, x = entry ∨ x ∈ c.entries) :
    ∀ p ∈ c.failed.filter (·.1 != entry), p.1 ∉ l := by
  intro p hp hmem
  obtain ⟨hp, hne⟩ := List.mem_filter.1 hp
  rcases hl p.1 hmem with heq | hold
  · simp [heq] at hne
  · exact h.disjoint p hp hold

/-- The marks stay in order when one is taken away. -/
private theorem Sound.sorted_unmarked (h : c.Sound) (entry : UInt32) :
    Ascending.Sorted (·.1.toNat) (c.failed.filter (·.1 != entry)) :=
  List.Pairwise.filter _ h.sorted

/-- The cache after a region is added, with what is evicted for it. Its entry is not marked as failed
any more. -/
structure Inserted (c : Cache) (r : Compiled) (p : Cache × Option UInt32) : Prop where
  sound : p.1.Sound
  capacity : p.1.capacity = c.capacity
  failed : p.1.failed = c.failed.filter (·.1 != r.entry)
  evicted : p.2.toList.length ≤ 1
  size : r.entry ∉ c.entries → p.1.size + p.2.toList.length = c.size + 1

/-- Adding a region where there is room, or in the place of one with its entry. -/
private theorem Sound.insert_of_room (h : c.Sound) {r : Compiled}
    (hroom : (c.contains r.entry || c.size < c.capacity) = true) : c.Inserted r (c.insert r) := by
  have hinsert : c.insert r =
      (⟨c.capacity, r :: c.others r.entry, c.failed.filter (·.1 != r.entry)⟩, none) :=
    if_pos hroom
  rw [hinsert]
  have hothers : (c.others r.entry).length ≤ c.size := List.length_filter_le _ _
  have hnodup : ((r :: c.others r.entry).map (·.entry)).Nodup := by
    rw [List.map_cons, map_entry_others]
    exact List.nodup_cons.2 ⟨by simp [List.mem_filter], h.nodup.filter _⟩
  refine ⟨⟨hnodup, ?_, h.sorted_unmarked _, h.not_mem_unmarked ?_⟩, rfl, rfl, by simp,
    fun hnew => ?_⟩
  -- Within the capacity: a region with this entry leaves, or there was room for one more.
  · change (r :: c.others r.entry).length ≤ c.capacity
    rw [List.length_cons]
    by_cases hmem : r.entry ∈ c.entries
    · -- The region with this entry leaves.
      obtain ⟨old, hold, heq⟩ := List.mem_map.1 hmem
      have hlt : (c.others r.entry).length < c.regions.length :=
        List.length_filter_lt_length_iff_exists.2 ⟨old, hold, by simp [heq]⟩
      exact Nat.le_trans hlt h.size_le
    · have hlt : c.size < c.capacity := by
        simpa [contains_iff, hmem] using hroom
      omega
  · intro x hx
    change x ∈ (r :: c.others r.entry).map (·.entry) at hx
    rw [List.map_cons, map_entry_others] at hx
    exact (List.mem_cons.1 hx).imp_right fun hx => (List.mem_filter.1 hx).1
  · change (r :: c.others r.entry).length + 0 = c.size + 1
    rw [others_eq_self hnew]
    rfl

/-- Adding a region to a full cache: the one that was not used for longest leaves. -/
private theorem Sound.insert_of_full (h : c.Sound) (hpos : c.capacity ≠ 0) {r : Compiled}
    (hroom : ¬ (c.contains r.entry || c.size < c.capacity) = true) :
    c.Inserted r (c.insert r) := by
  have hinsert : c.insert r =
      (⟨c.capacity, r :: c.regions.dropLast, c.failed.filter (·.1 != r.entry)⟩,
        (c.regions.getLast?).map (·.entry)) :=
    if_neg hroom
  rw [hinsert]
  simp only [Bool.or_eq_true, contains_iff, decide_eq_true_eq, not_or, Nat.not_lt] at hroom
  have hne : c.regions ≠ [] := by
    intro hnil
    have : c.size = 0 := by simp [size, hnil]
    omega
  -- The last region is the one that was used longest ago.
  have hdrop : (c.regions.dropLast).length + 1 = c.size := by
    rw [List.length_dropLast, size]
    have := List.length_pos_iff.2 hne
    omega
  have hsub : (c.regions.dropLast.map (·.entry)).Sublist c.entries :=
    (List.dropLast_sublist _).map _
  refine ⟨⟨?_, ?_, h.sorted_unmarked _, h.not_mem_unmarked ?_⟩, rfl, rfl, ?_, fun _ => ?_⟩
  · exact List.nodup_cons.2 ⟨fun hmem => hroom.1 (hsub.subset hmem), h.nodup.sublist hsub⟩
  · change (c.regions.dropLast).length + 1 ≤ c.capacity
    rw [hdrop]
    exact h.size_le
  · intro x hx
    exact (List.mem_cons.1 hx).imp_right fun hx => hsub.subset hx
  · rw [Option.length_toList]
    split <;> omega
  -- One region comes and one goes.
  · change (c.regions.dropLast).length + 1 + _ = _
    rw [hdrop, List.getLast?_eq_some_getLast hne]
    rfl

/-- Inserting a region takes the mark from its entry, and makes room by evicting the one that was
used longest ago. -/
theorem Sound.insert (h : c.Sound) (hpos : c.capacity ≠ 0) (r : Compiled) :
    c.Inserted r (c.insert r) := by
  by_cases hroom : (c.contains r.entry || c.size < c.capacity) = true
  · exact h.insert_of_room hroom
  · exact h.insert_of_full hpos hroom

/-- A mark for an address adds no region, and is new unless the address was marked before. -/
theorem Sound.markFailed (h : c.Sound) (addr : UInt32) (error : CompileError) :
    (c.markFailed addr error).Sound ∧
      (addr ∉ c.entries → c.isFailed addr = false →
        (c.markFailed addr error).size = c.size ∧
        (c.markFailed addr error).failed.length = c.failed.length + 1) := by
  have hentries : (c.markFailed addr error).entries = c.entries.filter (· != addr) :=
    map_entry_others
  refine ⟨⟨?_, ?_, h.sorted.put _, ?_⟩, fun hnew hfailed => ⟨?_, Ascending.length_put fun p hp heq => ?_⟩⟩
  · rw [hentries]
    exact h.nodup.filter _
  · exact Nat.le_trans (List.length_filter_le _ _) h.size_le
  · intro p hp hmem
    rw [hentries] at hmem
    obtain ⟨hmem, hne⟩ := List.mem_filter.1 hmem
    rcases (Ascending.mem_put h.sorted _ p).1 hp with rfl | ⟨hp, -⟩
    · simp at hne
    · exact h.disjoint p hp hmem
  · exact congrArg List.length (others_eq_self hnew)
  · have heq : p.1 = addr := UInt32.toNat_inj.1 heq
    have : c.isFailed addr = true := (isFailed_iff h.sorted).2 ⟨p.2, heq ▸ hp⟩
    rw [hfailed] at this
    cases this

end Cache

/-! ## The counters -/

namespace Stats

variable {s : Stats} {entry : UInt32} {reason : ExitReason} {count : UInt64}

/-- All exits of regions. -/
def exitSum (s : Stats) : Nat := (ExitReason.all.map s.exitCount).sum

/-- A run is counted for the reason that it ended for. -/
theorem exitCount_recordRun (other : ExitReason) : (s.recordRun entry reason count).exitCount other =
    s.exitCount other + if other = reason then 1 else 0 := by
  have hindex : (reason.index : Nat) = other.index ↔ other = reason := by
    cases other <;> cases reason <;> decide
  change (s.exits.set reason.index (s.exits[reason.index] + 1))[(other.index : Nat)] = _
  rw [Vector.getElem_set]
  simp only [hindex]
  split
  · next h =>
    rw [h]
    rfl
  · rfl

/-- A run is counted once over all reasons. -/
theorem exitSum_recordRun : (s.recordRun entry reason count).exitSum = s.exitSum + 1 := by
  simp only [exitSum, ExitReason.all, List.map_cons, List.map_nil, List.sum_cons, List.sum_nil,
    exitCount_recordRun]
  cases reason <;> simp <;> omega

end Stats

/-! ## Steps of an engine -/

/-- The build found no record of its entry. -/
def Status.isUnseen : Status → Bool
  | ready => false
  | failed error => error.isTransient

namespace Engine

/-- The engines that a client can have after calls that returned, starting with a new one. `direct`
says that one of the calls was to build a region, and `unseen` counts the builds that found no
record of their entry. -/
inductive Used (config : Config) (backend : Backend) : Bool → Nat → Engine → Prop where
  | new : Used config backend false 0 (.new config backend)
  | run {direct : Bool} {unseen : Nat} {e : Engine} (h : Used config backend direct unseen e)
    (fuel : Nat) (s : State) (maxBlocks : Nat)
    (hreturn : ∀ cause, (e.run fuel s maxBlocks).outcome ≠ .error (.crash cause)) :
    Used config backend direct unseen (e.run fuel s maxBlocks).engine
  | tryExecute {direct : Bool} {unseen : Nat} {e e' : Engine}
    (h : Used config backend direct unseen e) {fuel : Nat} {s s' : State} {left : Bool}
    (hreturn : e.tryExecute fuel s = .ok (e', s', left)) : Used config backend direct unseen e'
  | build {direct : Bool} {unseen : Nat} {e e' : Engine} (h : Used config backend direct unseen e)
    {entry : UInt32} {status : Status} (hreturn : e.build entry = .ok (e', status)) :
    Used config backend true (unseen + if status.isUnseen then 1 else 0) e'

variable {e e' : Engine} {direct : Bool} {unseen fuel maxBlocks n : Nat} {s s' : State}
  {sum sum' : Summary}

/-- The books of an engine agree. `direct` says that the client told the engine to build a region,
and `unseen` is the number of builds that found no record of their entry. -/
structure Kept (direct : Bool) (unseen : Nat) (e : Engine) : Prop where
  cache : e.cache.Sound
  capacity : e.cache.capacity = e.config.cacheCapacity
  exits : e.stats.invocations = e.stats.exitSum
  evictions : e.stats.evictions ≤ e.stats.compiled
  attempts : e.stats.attempts = e.stats.compiled + e.stats.failed + unseen
  own : direct = false → unseen = 0 ∧ e.stats.compiled = e.stats.evictions + e.cache.size ∧
    e.stats.failed = e.cache.failed.length

/-- A new engine has nothing to keep books of. -/
theorem kept_new (config : Config) (backend : Backend) : (new config backend).Kept false 0 where
  cache := Cache.sound_new _
  capacity := rfl
  exits := rfl
  evictions := Nat.le_refl _
  attempts := rfl
  own _ := ⟨rfl, rfl, rfl⟩

/-- The books of an engine agree all the less if its client may have built regions. -/
theorem Kept.toDirect (h : e.Kept direct unseen) : e.Kept true unseen :=
  ⟨h.cache, h.capacity, h.exits, h.evictions, h.attempts, nofun⟩

/-- Building a region keeps the books. The engine itself builds only regions that are neither
cached nor failed, from blocks that it has seen. -/
theorem Kept.build (h : e.Kept direct unseen) {entry : UInt32} {status : Status}
    (hbuild : e.build entry = .ok (e', status))
    (hown : direct = false → entry ∉ e.cache.entries ∧ e.cache.isFailed entry = false ∧
      e.profile.trace? entry ≠ none) :
    e'.Kept direct (unseen + if status.isUnseen then 1 else 0) := by
  have hpos : e.cache.capacity ≠ 0 := h.capacity ▸ e.config.cacheCapacity_ne
  have hattempts := h.attempts
  obtain ⟨region, hcompile, rfl, rfl⟩ | ⟨error, hcompile, rfl, ⟨hseen, rfl⟩ | ⟨hseen, rfl⟩⟩ :=
    build_cases hbuild
  · obtain ⟨hsound, hcap, hfailed, hone, hsize⟩ := h.cache.insert hpos region
    refine ⟨hsound, hcap.trans h.capacity, h.exits, Nat.add_le_add h.evictions hone, ?_, fun hd => ?_⟩
    · simp only [Status.isUnseen, Bool.false_eq_true, if_false]
      omega
    · obtain ⟨hzero, hcompiled, hfail⟩ := h.own hd
      obtain ⟨hnew, hnofail, -⟩ := hown hd
      rw [← compile_entry hcompile] at hnew hnofail
      have hsize := hsize hnew
      refine ⟨hzero, by simp only; omega, ?_⟩
      -- The entry was not failed, so no failure is forgotten.
      simp only [hfailed]
      rw [List.filter_eq_self.2, hfail]
      intro p hp
      have hne : p.1 ≠ region.entry := by
        intro heq
        have : e.cache.isFailed region.entry = true :=
          (Cache.isFailed_iff h.cache.sorted).2 ⟨p.2, heq ▸ hp⟩
        rw [hnofail] at this
        cases this
      simpa using hne
  · refine ⟨h.cache, h.capacity, h.exits, h.evictions, ?_, fun hd => ?_⟩
    · simp only [Status.isUnseen, hseen, if_true]
      omega
    · rw [compile_not_transient (hown hd).2.2 hcompile] at hseen
      cases hseen
  · obtain ⟨hsound, hnew⟩ := h.cache.markFailed entry error
    simp only [Status.isUnseen, hseen, Bool.false_eq_true, if_false]
    refine ⟨hsound, h.capacity, h.exits, h.evictions, by simp only; omega, fun hd => ?_⟩
    obtain ⟨hzero, hcompiled, hfail⟩ := h.own hd
    obtain ⟨hsize, hlength⟩ := hnew (hown hd).1 (hown hd).2.1
    exact ⟨hzero, hcompiled.trans (congrArg _ hsize.symm), by simp only [hlength, hfail]⟩

/-- Running a region keeps the books. -/
theorem Kept.use (h : e.Kept direct unseen) {addr : UInt32} {region : Compiled} {cache : Cache}
    (huse : e.cache.use? addr = some (region, cache)) (reason : ExitReason) (count : UInt64) :
    Kept direct unseen
      { e with cache := cache, stats := e.stats.recordRun addr reason count } := by
  obtain ⟨-, hperm, hfailed, hcap⟩ := Cache.use?_perm h.cache huse
  refine ⟨h.cache.use huse, hcap.trans h.capacity, ?_, h.evictions, h.attempts, fun hd => ?_⟩
  · rw [Stats.exitSum_recordRun, ← h.exits]
    rfl
  · obtain ⟨hzero, hcompiled, hfail⟩ := h.own hd
    refine ⟨hzero, ?_, hfail.trans (congrArg _ hfailed.symm)⟩
    exact hcompiled.trans (congrArg _ hperm.length_eq.symm)

/-- Regions run one after the other keep the books and are counted. -/
theorem Kept.chain (h : e.Kept direct unseen) {count : Nat} {c : Chain}
    (hchain : chain fuel count e s = .ok c) :
    c.engine.Kept direct unseen ∧ c.invocations ≤ count ∧
      c.engine.stats.invocations = e.stats.invocations + c.invocations ∧
      c.engine.stats.interpreted = e.stats.interpreted := by
  induction count generalizing e s c with
  | zero =>
    cases hchain
    exact ⟨h, Nat.le_refl _, rfl, rfl⟩
  | succ count ih =>
    unfold Engine.chain at hchain
    split at hchain
    · cases hchain
      exact ⟨h, Nat.zero_le _, rfl, rfl⟩
    · next region cache huse =>
      split at hchain
      · next exit t hinvoke =>
        -- One more region was invoked, in the chain and in the books.
        obtain ⟨rest, hrest, hc⟩ := bind_eq_ok.1 hchain
        cases hc
        obtain ⟨hkept, hle, hinv, hint⟩ := ih (h.use huse exit.reason (t.icnt - s.icnt)) hrest
        refine ⟨hkept, Nat.succ_le_succ hle, ?_, hint⟩
        rw [hinv]
        change e.stats.invocations + 1 + rest.invocations = e.stats.invocations + (rest.invocations + 1)
        omega
      · cases hchain
      · cases hchain

/-- A chain of runs is counted run by run, and only there. -/
theorem Kept.runCompiled (h : e.Kept direct unseen) {c : Chain}
    (hrun : e.runCompiled fuel s = .ok c) :
    c.engine.Kept direct unseen ∧ c.invocations ≤ maxChain ∧
      c.engine.stats.invocations = e.stats.invocations + c.invocations ∧
      c.engine.stats.interpreted = e.stats.interpreted := by
  unfold Engine.runCompiled at hrun
  split at hrun
  · exact h.chain hrun
  · cases hrun
    exact ⟨h, Nat.zero_le _, rfl, rfl⟩

/-- A build changes no counter of blocks. -/
theorem build_counts {entry : UInt32} {status : Status} (h : e.build entry = .ok (e', status)) :
    e'.stats.invocations = e.stats.invocations ∧ e'.stats.interpreted = e.stats.interpreted := by
  obtain ⟨_, -, -, rfl⟩ | ⟨_, -, -, ⟨-, rfl⟩ | ⟨-, rfl⟩⟩ := build_cases h <;> exact ⟨rfl, rfl⟩

/-- A block that was seen is not unseen by its build. -/
theorem isUnseen_of_seen {entry : UInt32} {status : Status} (h : e.build entry = .ok (e', status))
    (hseen : e.profile.trace? entry ≠ none) : status.isUnseen = false := by
  obtain ⟨_, -, rfl, -⟩ | ⟨error, hcompile, rfl, -⟩ := build_cases h
  · rfl
  · exact compile_not_transient hseen hcompile

/-- Learning from an interpreted block keeps the books and counts the block. -/
theorem Kept.learn (h : e.Kept direct unseen) {trace : Machine.Trace} {next : UInt32}
    (hlearn : e.learn trace next = .ok e') :
    e'.Kept direct unseen ∧ e'.stats.invocations = e.stats.invocations ∧
      e'.stats.interpreted = e.stats.interpreted + 1 := by
  have hnoted : (e.noted trace next).Kept direct unseen :=
    ⟨h.cache, h.capacity, h.exits, h.evictions, h.attempts, h.own⟩
  obtain rfl | ⟨status, hbuild, hnew, hnofail⟩ := learn_cases hlearn
  · exact ⟨hnoted, rfl, rfl⟩
  · have hseen := noted_seen e trace next
    have hnew : trace.entry ∉ e.cache.entries := by
      rw [← Cache.contains_iff, hnew]
      exact Bool.false_ne_true
    have hkept := hnoted.build hbuild fun _ => ⟨hnew, hnofail, hseen⟩
    rw [isUnseen_of_seen hbuild hseen] at hkept
    exact ⟨hkept, build_counts hbuild⟩

/-! ## Runs -/

/-- A round keeps the books and counts what it does. -/
theorem Kept.round (h : e.Kept direct unseen) (hround : Round fuel e s sum e' s' sum') :
    e'.Kept direct unseen ∧
      e'.stats.interpreted + sum.interpreted = e.stats.interpreted + sum'.interpreted ∧
      e'.stats.invocations + sum.invocations = e.stats.invocations + sum'.invocations ∧
      sum'.blocks + (sum.interpreted + sum.invocations) =
        sum.blocks + (sum'.interpreted + sum'.invocations) ∧
      sum.blocks < sum'.blocks ∧ sum'.blocks ≤ sum.blocks + maxChain := by
  cases hround with
  | compiled hrun hpos =>
    obtain ⟨hkept, hle, hinv, hint⟩ := h.runCompiled hrun
    refine ⟨hkept, ?_⟩
    simp only
    omega
  | interpreted hrun hnone hstep hlearn =>
    obtain ⟨hkept, -, hinv, hint⟩ := h.runCompiled hrun
    obtain ⟨hkept, hinv', hint'⟩ := hkept.learn hlearn
    refine ⟨hkept, ?_⟩
    simp only [maxChain]
    omega

/-- A sequence of rounds keeps the books and counts what it does. -/
theorem Kept.rounds (h : e.Kept direct unseen)
    (hrounds : Rounds fuel maxBlocks n e s sum e' s' sum') :
    e'.Kept direct unseen ∧
      e'.stats.interpreted + sum.interpreted = e.stats.interpreted + sum'.interpreted ∧
      e'.stats.invocations + sum.invocations = e.stats.invocations + sum'.invocations ∧
      sum'.blocks + (sum.interpreted + sum.invocations) =
        sum.blocks + (sum'.interpreted + sum'.invocations) ∧
      sum.blocks + n ≤ sum'.blocks ∧
      (sum'.blocks = sum.blocks ∨ 0 < maxBlocks ∧ sum'.blocks < maxBlocks + maxChain) := by
  induction hrounds with
  | none => exact ⟨h, rfl, rfl, rfl, Nat.le_refl _, .inl rfl⟩
  | round hless hround _ ih =>
    obtain ⟨hkept, hint, hinv, hblocks, hmore, hchain⟩ := h.round hround
    obtain ⟨hkept', hint', hinv', hblocks', hmore', hbound⟩ := ih hkept
    refine ⟨hkept', ?_⟩
    omega

/-- The engine after a run that returns has its books in order. -/
theorem Kept.run (h : e.Kept direct unseen)
    (hreturn : ∀ cause, (e.run fuel s maxBlocks).outcome ≠ .error (.crash cause)) :
    (e.run fuel s maxBlocks).engine.Kept direct unseen := by
  obtain ⟨n, e₁, s₁, sum₁, hrounds, ⟨hrun, -⟩ | ⟨fault, ⟨c, hchain, -, -, hengine⟩, -⟩⟩ :=
    runRounds_spec hreturn
  · have hkept := (h.rounds hrounds).1
    rw [Engine.run, hrun]
    exact hkept
  · have hkept := ((h.rounds hrounds).1.runCompiled hchain).1
    rw [Engine.run, hengine]
    exact hkept

/-- A run that does its blocks returns. -/
theorem returns_of_isOk {maxBlocks : Nat} (h : (e.run fuel s maxBlocks).outcome.isOk = true)
    (cause : Crash) : (e.run fuel s maxBlocks).outcome ≠ .error (.crash cause) := by
  intro heq
  rw [heq] at h
  cases h

/-- What a run that did its blocks counts. -/
theorem Kept.summary (h : e.Kept direct unseen) {summary : Summary}
    (hok : (e.run fuel s maxBlocks).outcome = .ok summary) :
    summary.blocks = summary.interpreted + summary.invocations ∧
      (e.run fuel s maxBlocks).engine.stats.interpreted =
        e.stats.interpreted + summary.interpreted ∧
      (e.run fuel s maxBlocks).engine.stats.invocations =
        e.stats.invocations + summary.invocations ∧
      maxBlocks ≤ summary.blocks ∧ summary.blocks ≤ maxBlocks + 63 ∧
      (maxBlocks = 0 → summary.blocks = 0) := by
  have hreturn : ∀ cause, (e.run fuel s maxBlocks).outcome ≠ .error (.crash cause) := by
    simp [hok]
  obtain ⟨n, e₁, s₁, sum₁, hrounds, ⟨hrun, hdone⟩ | ⟨fault, -, hfault⟩⟩ := runRounds_spec hreturn
  · have hspec := (h.rounds hrounds).2
    simp only [Engine.run, hrun, Except.ok.injEq] at hok ⊢
    subst hok
    simp only [maxChain] at hspec
    omega
  · rw [Engine.run, hfault] at hok
    cases hok

/-! ## Sequences of calls -/

/-- The books of an engine are right whatever it was used for. -/
theorem Used.kept {config : Config} {backend : Backend} (h : Used config backend direct unseen e) :
    e.Kept direct unseen := by
  induction h with
  | new => exact kept_new config backend
  | run _ _ _ _ hreturn ih => exact ih.run hreturn
  | tryExecute _ hreturn ih =>
    obtain ⟨c, hchain, heq⟩ := bind_eq_ok.1 hreturn
    cases heq
    exact (ih.runCompiled hchain).1
  | build _ hreturn ih =>
    exact ih.toDirect.build hreturn nofun

/-- After every sequence of calls, the cache, the failed entries and the counters of an engine
agree, and every run counts the blocks that it did. -/
theorem books_agree {config : Config} {backend : Backend} (h : Used config backend direct unseen e) :
    (∀ addr, ¬ (e.cache.contains addr = true ∧ e.cache.isFailed addr = true)) ∧
    e.cache.size ≤ e.cache.capacity ∧ e.cache.capacity = e.config.cacheCapacity ∧
    e.stats.invocations = e.stats.exitSum ∧
    e.stats.evictions ≤ e.stats.compiled ∧
    e.stats.attempts = e.stats.compiled + e.stats.failed + unseen ∧
    (direct = false →
      e.stats.attempts = e.stats.compiled + e.stats.failed ∧
      e.stats.compiled = e.stats.evictions + e.cache.size ∧
      e.stats.failed = e.cache.failed.length) ∧
    ∀ (fuel : Nat) (s : State) (maxBlocks : Nat) (summary : Summary),
      (e.run fuel s maxBlocks).outcome = .ok summary →
      summary.blocks = summary.interpreted + summary.invocations ∧
      (e.run fuel s maxBlocks).engine.stats.interpreted =
        e.stats.interpreted + summary.interpreted ∧
      (e.run fuel s maxBlocks).engine.stats.invocations =
        e.stats.invocations + summary.invocations ∧
      maxBlocks ≤ summary.blocks ∧ summary.blocks ≤ maxBlocks + 63 ∧
      (maxBlocks = 0 → summary.blocks = 0) := by
  have hkept := h.kept
  refine ⟨?_, hkept.cache.size_le, hkept.capacity, hkept.exits, hkept.evictions, hkept.attempts, ?_,
    fun _ _ _ _ hok => hkept.summary hok⟩
  · rintro addr ⟨hcached, hfailed⟩
    obtain ⟨error, hmem⟩ := (Cache.isFailed_iff hkept.cache.sorted).1 hfailed
    exact hkept.cache.disjoint _ hmem (Cache.contains_iff.1 hcached)
  -- Direct builds may build an entry twice or mark one that is cached, so these counts are of other
  -- use only.
  · intro hdirect
    obtain ⟨hzero, hcompiled, hfailed⟩ := hkept.own hdirect
    refine ⟨?_, hcompiled, hfailed⟩
    rw [hkept.attempts, hzero]
    rfl

/-- Three blocks that jump around in a circle. The last of them adds with a trap on overflow, which
is interpreted only. -/
def circling : State :=
  .initial ((Machine.Memory.zeroed 11 (by decide)).loadWords 0x20
    [0x0800000a, 0, 0x0800000c, 0, 0x01284820, 0x08000008, 0]) 0x20

/-- A configuration that builds a region from every block and keeps one region. -/
def narrow : Config :=
  ⟨{ hotThreshold := 1, cacheCapacity := 1 }, by decide, by decide, by decide⟩

/-- The run goes once around the circle and comes to its last block again. -/
def circled : Run := (new narrow .eval).run 10 circling 5

/-- The engine has built two regions, of which the second pushed out the first and was run, and has
given up the other two blocks. One more round is counted like the first, and so is an attempt that
the client asks for and that finds nothing to build from. -/
theorem books_agree_circled : ∃ summary e,
    (circled.engine.stats.compiled, circled.engine.stats.failed, circled.engine.stats.evictions,
      circled.engine.stats.invocations) = (2, 2, 1, 1) ∧
    circled.engine.stats.attempts = circled.engine.stats.compiled + circled.engine.stats.failed ∧
    circled.engine.stats.compiled = circled.engine.stats.evictions + circled.engine.cache.size ∧
    circled.engine.stats.failed = circled.engine.cache.failed.length ∧
    (circled.engine.run 10 circled.state 6).outcome = .ok summary ∧
    (summary.interpreted, summary.invocations) = (4, 2) ∧
    summary.blocks = summary.interpreted + summary.invocations ∧
    circled.engine.build 0x1000 = .ok (e, .failed (.notProfiled 0x1000)) ∧
    e.stats.attempts = e.stats.compiled + e.stats.failed + 1 := by
  have hused : Used narrow .eval false 0 circled.engine :=
    .run .new 10 circling 5 (returns_of_isOk (by decide +kernel))
  obtain ⟨-, -, -, -, -, -, hown, hruns⟩ := books_agree hused
  obtain ⟨hattempts, hcompiled, hfailed⟩ := hown rfl
  have hsummary : (circled.engine.run 10 circled.state 6).outcome = .ok ⟨6, 4, 2⟩ := by
    decide +kernel
  have hstatus : circled.engine.build 0x1000 >>= (Except.ok ·.2) =
      .ok (.failed (.notProfiled 0x1000)) := by decide +kernel
  obtain ⟨⟨e, status⟩, hbuild, hfailure⟩ := bind_eq_ok.1 hstatus
  obtain rfl := Except.ok.inj hfailure
  obtain ⟨-, -, -, -, -, hdirect, -, -⟩ := books_agree (.build hused hbuild)
  exact ⟨_, e, by decide +kernel, hattempts, hcompiled, hfailed, hsummary, rfl,
    (hruns 10 circled.state 6 _ hsummary).1, hbuild, hdirect⟩

end Engine

end HotRegion
