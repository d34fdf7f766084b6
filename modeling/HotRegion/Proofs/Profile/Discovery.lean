import HotRegion.Proofs.Ascending
import HotRegion.Proofs.Profile

/-!
# Discovery as a bounded closure

What a profile knows is told by the calls that recorded it. Around an entry, discovery collects the
recorded blocks that control can be seen to reach from there, in the order in which it finds them.
The bound only cuts this list short: with a smaller bound the same walk stops earlier.

## Key results

- `trace?_ofHistory`, `mem_candidates_ofHistory`: what a profile knows of its history
- `visit_mono`: the walk with a smaller bound
- `Search.advance`, `Search.visit`: what one visit and the whole walk have found
- `discover_closes`: discovery on the profile of any history
-/

namespace HotRegion.Profile

open Isa
open Machine (Trace)

variable {p : Profile} {first t u : Trace} {addr entry next : UInt32} {limit limit' fuel i : Nat}
  {found : List Trace} {candidates : List UInt32}

/-! ## Histories -/

/-- Blocks that were recorded, each with the address at which control went on, the latest first. -/
abbrev History := List (Trace × UInt32)

/-- The profile that a history leads to. -/
def ofHistory : History → Profile
  | [] => .empty
  | (trace, next) :: earlier => (ofHistory earlier).record trace next

namespace History

/-- The latest trace of the block at `addr`. -/
def latest? (calls : History) (addr : UInt32) : Option Trace :=
  (calls.find? (·.1.entry == addr)).map (·.1)

/-- After the block with trace `t`, control was seen to go on at `addr`, or is known to: at a static
target of the transfer that ends the block, or at the next address if there is none. -/
inductive Leads (calls : History) (t : Trace) (addr : UInt32) : Prop where
  | observed {u : Trace} (call : (u, addr) ∈ calls) (entry : u.entry = t.entry)
  | target {at' : UInt32} {control : Control} (transfer : t.transfer = some (at', control))
      (mem : addr ∈ control.targets)
  | fallthrough (transfer : t.transfer = none) (next : addr = t.exitAddr + 4)

/-- Recorded blocks lead from `first` to a trace, one to the other. -/
inductive Reachable (calls : History) (first : Trace) : Trace → Prop where
  | first : Reachable calls first first
  | step {t u : Trace} (h : Reachable calls first t) (leads : calls.Leads t u.entry)
      (recorded : calls.latest? u.entry = some u) : Reachable calls first u

end History

variable {calls : History}

/-- Whatever is recorded, blocks are listed at their addresses. -/
theorem listed_ofHistory (calls : History) : (ofHistory calls).Listed := by
  induction calls with
  | nil => exact listed_empty
  | cons call calls ih => exact ih.record call.1 call.2

/-- The block at an address is the one that was recorded there last. -/
theorem trace?_ofHistory (calls : History) (addr : UInt32) :
    (ofHistory calls).trace? addr = calls.latest? addr := by
  induction calls with
  | nil => simp [ofHistory, trace?, empty, History.latest?]
  | cons call calls ih =>
    obtain ⟨trace, next⟩ := call
    rw [ofHistory, trace?_record, ih, History.latest?, History.latest?, List.find?_cons]
    by_cases h : addr = trace.entry
    · simp [h]
    · have hne : (trace.entry == addr) = false := beq_eq_false_iff_ne.2 (Ne.symm h)
      simp [h, hne]

/-- A record notes where control went on from its block. -/
theorem successors_record (p : Profile) (trace : Trace) (next addr : UInt32) :
    (p.record trace next).successors addr =
      if addr = trace.entry then Ascending.insert UInt32.toNat next (p.successors addr)
      else p.successors addr := by
  simp only [successors, record, Std.TreeMap.getElem?_insert, Std.LawfulEqOrd.compare_eq_iff_eq]
  by_cases h : addr = trace.entry
  · simp [h]
  · simp [h, Ne.symm h]

/-- The successors of an address are where control went on from blocks recorded there. -/
theorem mem_successors_ofHistory :
    next ∈ (ofHistory calls).successors addr ↔ ∃ u, (u, next) ∈ calls ∧ u.entry = addr := by
  induction calls with
  | nil => simp [ofHistory, successors, empty]
  | cons call calls ih =>
    obtain ⟨trace, seen⟩ := call
    have hinsert (l : List UInt32) :
        next ∈ Ascending.insert UInt32.toNat seen l ↔ next = seen ∨ next ∈ l :=
      Ascending.mem_insert (fun _ _ => UInt32.toNat_inj.1) seen next l
    rw [ofHistory, successors_record]
    constructor
    · intro h
      split at h
      · next heq =>
        obtain rfl | h := (hinsert _).1 h
        · exact ⟨trace, List.mem_cons_self, heq.symm⟩
        · obtain ⟨u, hu, hentry⟩ := ih.1 h
          exact ⟨u, List.mem_cons_of_mem _ hu, hentry⟩
      · obtain ⟨u, hu, hentry⟩ := ih.1 h
        exact ⟨u, List.mem_cons_of_mem _ hu, hentry⟩
    · rintro ⟨u, hu, hentry⟩
      obtain heq | hu := List.mem_cons.1 hu
      · cases heq
        rw [if_pos hentry.symm]
        exact (hinsert _).2 (.inl rfl)
      · have hmem := ih.2 ⟨u, hu, hentry⟩
        split
        · exact (hinsert _).2 (.inr hmem)
        · exact hmem

/-- The candidates after a block are the addresses that it leads to. -/
theorem mem_candidates_ofHistory :
    addr ∈ (ofHistory calls).candidates t ↔ calls.Leads t addr := by
  unfold candidates
  rw [Ascending.mem_union (fun _ _ => UInt32.toNat_inj.1), mem_successors_ofHistory]
  constructor
  · rintro (⟨u, hu, hentry⟩ | hknown)
    · exact .observed hu hentry
    · cases htransfer : t.transfer with
      | none =>
        rw [htransfer] at hknown
        exact .fallthrough htransfer (List.mem_singleton.1 hknown)
      | some transfer =>
        rw [htransfer] at hknown
        exact .target htransfer hknown
  · rintro (⟨hu, hentry⟩ | ⟨htransfer, hmem⟩ | ⟨htransfer, rfl⟩)
    · exact .inl ⟨_, hu, hentry⟩
    · rw [htransfer]
      exact .inr hmem
    · rw [htransfer]
      exact .inr (List.mem_singleton.2 rfl)

/-! ## The walk with a smaller bound -/

/-- What was found stays in its place when an address is looked up. -/
theorem prefix_lookUp (p : Profile) (addr : UInt32) (found : List Trace) :
    found <+: p.lookUp addr found := by
  unfold lookUp
  split
  · split
    · exact List.prefix_rfl
    · exact List.prefix_append found _
  · exact List.prefix_rfl

/-- What was found stays in its place when candidates are looked up. -/
theorem prefix_extend (p : Profile) (limit : Nat) (candidates : List UInt32) (found : List Trace) :
    found <+: (p.extend limit candidates found).1 := by
  induction candidates generalizing found with
  | nil => exact List.prefix_rfl
  | cons addr rest ih =>
    rw [extend_cons]
    split
    · exact List.prefix_rfl
    · exact (prefix_lookUp p addr found).trans (ih _)

/-- What was found stays in its place for the rest of the search. -/
theorem prefix_visit (p : Profile) (limit fuel i : Nat) (found : List Trace) :
    found <+: p.visit limit fuel i found := by
  induction fuel generalizing i found with
  | zero => exact List.prefix_rfl
  | succ fuel ih =>
    cases hget : found[i]? with
    | none =>
      simp only [visit_of_none hget, List.prefix_rfl]
    | some t =>
      have hextend := prefix_extend p limit (p.candidates t) found
      rw [visit_of_some hget]
      split
      · exact hextend
      · exact hextend.trans (ih (i + 1) _)

/-- With a smaller bound the candidates give the same traces or fewer, and the same if the bound was
not met. -/
theorem extend_mono (hlimit : limit' ≤ limit) (candidates : List UInt32) (found : List Trace) :
    (p.extend limit' candidates found).1 <+: (p.extend limit candidates found).1 ∧
      ((p.extend limit' candidates found).2 = false →
        p.extend limit candidates found = p.extend limit' candidates found) := by
  induction candidates generalizing found with
  | nil => exact ⟨List.prefix_rfl, fun _ => rfl⟩
  | cons addr rest ih =>
    by_cases hfull : limit' ≤ found.length
    · have hstops : p.extend limit' (addr :: rest) found = (found, true) := by
        rw [extend_cons, if_pos hfull]
      rw [hstops]
      exact ⟨prefix_extend p limit (addr :: rest) found, nofun⟩
    · -- Where the smaller bound is not met, the larger one is not met either.
      rw [extend_cons, extend_cons, if_neg hfull, if_neg (by omega)]
      exact ih _

/-- With a smaller bound the walk finds the first of the same traces. -/
theorem visit_mono (hlimit : limit' ≤ limit) (fuel i : Nat) (found : List Trace) :
    p.visit limit' fuel i found <+: p.visit limit fuel i found := by
  induction fuel generalizing i found with
  | zero => exact List.prefix_rfl
  | succ fuel ih =>
    cases hget : found[i]? with
    | none =>
      simp only [visit_of_none hget, List.prefix_rfl]
    | some t =>
      obtain ⟨hpre, hsame⟩ := extend_mono (p := p) hlimit (p.candidates t) found
      rw [visit_of_some hget, visit_of_some hget]
      by_cases hfull : (p.extend limit' (p.candidates t) found).2 = true
      · -- The walk stops here, and the other one only adds to what it has found.
        rw [if_pos hfull]
        split
        · exact hpre
        · exact hpre.trans (prefix_visit p limit fuel (i + 1) _)
      · rw [hsame (Bool.eq_false_iff.2 hfull), if_neg hfull, if_neg hfull]
        exact ih (i + 1) _

/-! ## What the walk finds -/

/-- The walk visits each recorded block at most once. -/
theorem Collected.length_le (h : Collected p first found) : found.length ≤ p.records.size := by
  have hnodup : (found.map (·.entry)).Nodup := List.pairwise_map.2 h.entries
  have hsubset : found.map (·.entry) ⊆ p.records.keys := by
    intro addr haddr
    obtain ⟨t, ht, rfl⟩ := List.mem_map.1 haddr
    have hrecorded := h.recorded t ht
    rw [Std.TreeMap.mem_keys, ← Std.TreeMap.isSome_getElem?_iff_mem]
    unfold trace? at hrecorded
    cases hget : p.records[t.entry]? with
    | none => simp [hget] at hrecorded
    | some record => rfl
  have hle := hnodup.length_le_of_subset hsubset
  rwa [List.length_map, Std.TreeMap.length_keys] at hle

/-- Every trace but the first one lies where a trace before it may go on. -/
def Sourced (p : Profile) (found : List Trace) : Prop :=
  ∀ k t, found[k + 1]? = some t → ∃ j u, j ≤ k ∧ found[j]? = some u ∧ t.entry ∈ p.candidates u

/-- The block at the entry needs no source. -/
theorem sourced_singleton (p : Profile) (t : Trace) : p.Sourced [t] := fun k _ hk => by
  simp at hk

/-- A block that was found early stays where it is. -/
theorem getElem?_kept {later : List Trace} (h : found <+: later) (hget : found[i]? = some t) :
    later[i]? = some t := by
  obtain ⟨new, rfl⟩ := h
  rw [List.getElem?_append_left (List.getElem?_eq_some_iff.1 hget).1, hget]

/-- A block may be added after one that it is a candidate of. -/
theorem Sourced.push (h : p.Sourced found) (hget : found[i]? = some u)
    (ht : t.entry ∈ p.candidates u) : p.Sourced (found ++ [t]) := by
  have hi : i < found.length := (List.getElem?_eq_some_iff.1 hget).1
  have hpre : found <+: found ++ [t] := List.prefix_append found [t]
  intro k v hk
  by_cases hlt : k + 1 < found.length
  · rw [List.getElem?_append_left hlt] at hk
    obtain ⟨j, w, hj, hw, hmem⟩ := h k v hk
    exact ⟨j, w, hj, getElem?_kept hpre hw, hmem⟩
  · -- The trace that is added at the end comes from the one at `i`.
    have hend : k + 1 = found.length := by
      have hlen : k + 1 < (found ++ [t]).length := (List.getElem?_eq_some_iff.1 hk).1
      rw [List.length_append, List.length_singleton] at hlen
      omega
    rw [hend, List.getElem?_concat_length] at hk
    cases hk
    exact ⟨i, u, by omega, getElem?_kept hpre hget, ht⟩

/-- The block at a candidate of a block found is added after that. -/
theorem Sourced.lookUp (h : p.Sourced found) (hp : p.Listed) (hget : found[i]? = some u)
    (haddr : addr ∈ p.candidates u) : p.Sourced (p.lookUp addr found) := by
  unfold Profile.lookUp
  split
  · next t ht =>
    split
    · exact h
    · refine h.push hget ?_
      rwa [hp addr t ht]
  · exact h

/-- The blocks at the candidates of a block found are added after that. -/
theorem Sourced.extend (h : p.Sourced found) (hp : p.Listed) (hget : found[i]? = some u)
    (hall : ∀ addr ∈ candidates, addr ∈ p.candidates u) :
    p.Sourced (p.extend limit candidates found).1 := by
  induction candidates generalizing found with
  | nil => exact h
  | cons addr rest ih =>
    have haddr : addr ∈ p.candidates u := hall addr List.mem_cons_self
    have hkept : (p.lookUp addr found)[i]? = some u :=
      getElem?_kept (prefix_lookUp p addr found) hget
    rw [extend_cons]
    split
    · exact h
    · exact ih (h.lookUp hp hget haddr) hkept fun a ha => hall a (List.mem_cons_of_mem _ ha)

/-- An address adds one block at most. -/
theorem length_lookUp_le (p : Profile) (addr : UInt32) (found : List Trace) :
    (p.lookUp addr found).length ≤ found.length + 1 := by
  unfold lookUp
  split
  · split
    · exact Nat.le_succ _
    · exact Nat.le_of_eq List.length_append
  · exact Nat.le_succ _

/-- A block at a candidate address has been found when the address is gone through. -/
theorem mem_lookUp (h : Collected p first found) (ht : p.trace? addr = some t) :
    t ∈ p.lookUp addr found := by
  unfold lookUp
  rw [ht]
  dsimp only
  split
  · next hany =>
    -- Some trace with this entry is there, and no other one is recorded under it.
    obtain ⟨u, hu, hentry⟩ := List.any_eq_true.1 hany
    have hrecorded := h.recorded u hu
    rw [beq_iff_eq.1 hentry, ht] at hrecorded
    cases hrecorded
    exact hu
  · exact List.mem_append_right _ List.mem_cons_self

/-- Candidates are added up to the limit. -/
theorem length_extend_le (p : Profile) (limit : Nat) (candidates : List UInt32)
    (found : List Trace) : (p.extend limit candidates found).1.length ≤ max limit found.length := by
  induction candidates generalizing found with
  | nil => exact Nat.le_max_right ..
  | cons addr rest ih =>
    rw [extend_cons]
    split
    · exact Nat.le_max_right ..
    · have hstep := ih (p.lookUp addr found)
      have hone := length_lookUp_le p addr found
      omega

/-- Going through candidates stops early only when the bound is met. -/
theorem limit_le_of_extend (h : (p.extend limit candidates found).2 = true) :
    limit ≤ (p.extend limit candidates found).1.length := by
  induction candidates generalizing found with
  | nil => cases h
  | cons addr rest ih =>
    rw [extend_cons] at h ⊢
    split
    · next hfull => exact hfull
    · next hroom =>
      rw [if_neg hroom] at h
      exact ih h

/-- When the bound was not met, every block at a candidate address has been found. -/
theorem mem_extend (hp : p.Listed) (h : Collected p first found)
    (hopen : (p.extend limit candidates found).2 = false) (haddr : addr ∈ candidates)
    (ht : p.trace? addr = some t) : t ∈ (p.extend limit candidates found).1 := by
  induction candidates generalizing found with
  | nil => cases haddr
  | cons a rest ih =>
    rw [extend_cons] at hopen ⊢
    split
    · next hfull =>
      rw [if_pos hfull] at hopen
      cases hopen
    · next hroom =>
      rw [if_neg hroom] at hopen
      obtain rfl | haddr := List.mem_cons.1 haddr
      · exact (prefix_extend p limit rest _).subset (mem_lookUp h ht)
      · exact ih (h.lookUp hp a) hopen haddr

/-- What the walk has found when it has visited the traces before position `i`. -/
structure Search (p : Profile) (limit : Nat) (first : Trace) (i : Nat) (found : List Trace) : Prop
    extends Collected p first found where
  length_le_limit : found.length ≤ max limit 1
  sourced : p.Sourced found
  /-- Every recorded block at which a visited trace may go on is there. -/
  closed : ∀ j u, j < i → found[j]? = some u → ∀ addr ∈ p.candidates u, ∀ t,
    p.trace? addr = some t → t ∈ found

/-- The search begins with the block at the entry. -/
theorem search_first (hp : p.Listed) (ht : p.trace? entry = some t) : Search p limit t 0 [t] where
  toCollected := collected_first hp ht
  length_le_limit := Nat.le_max_right limit 1
  sourced := sourced_singleton p t
  closed := fun j _ hj => absurd hj (Nat.not_lt_zero j)

/-- Going through the candidates of the trace at `i` keeps what the walk has found. -/
theorem Search.extend (h : Search p limit first i found) (hp : p.Listed)
    (hget : found[i]? = some t) :
    Search p limit first i (p.extend limit (p.candidates t) found).1 := by
  have hpre := prefix_extend p limit (p.candidates t) found
  have hi : i < found.length := (List.getElem?_eq_some_iff.1 hget).1
  refine { toCollected := h.toCollected.extend hp _, length_le_limit := ?_,
           sourced := h.sourced.extend hp hget fun _ haddr => haddr, closed := ?_ }
  · have hlength := length_extend_le p limit (p.candidates t) found
    have := h.length_le_limit
    omega
  · intro j u hj hu addr haddr v hv
    -- The visited traces were there before.
    have hold : found[j]? = some u := by
      have hlt : j < found.length := by omega
      rw [List.getElem?_eq_getElem hlt]
      rw [List.prefix_iff_getElem?.1 hpre j hlt] at hu
      exact hu
    exact hpre.subset (h.closed j u hj hold addr haddr v hv)

/-- The trace at `i` counts as visited when the bound was not met. -/
theorem Search.advance (h : Search p limit first i found) (hp : p.Listed)
    (hget : found[i]? = some t) (hopen : (p.extend limit (p.candidates t) found).2 = false) :
    Search p limit first (i + 1) (p.extend limit (p.candidates t) found).1 := by
  refine { h.extend hp hget with closed := ?_ }
  intro j u hj hu addr haddr v hv
  obtain hlt | rfl : j < i ∨ j = i := by omega
  · exact (h.extend hp hget).closed j u hlt hu addr haddr v hv
  · rw [getElem?_kept (prefix_extend p limit (p.candidates t) found) hget] at hu
    cases hu
    exact mem_extend hp h.toCollected hopen haddr hv

/-- With fuel for all recorded blocks the walk ends because the bound is met or because it has
visited every trace that it found. -/
theorem Search.visit (h : Search p limit first i found) (hp : p.Listed)
    (hfuel : p.records.size < i + fuel) :
    ∃ j, Search p limit first j (p.visit limit fuel i found) ∧
      (limit ≤ (p.visit limit fuel i found).length ∨ (p.visit limit fuel i found).length ≤ j) := by
  induction fuel generalizing i found with
  | zero =>
    -- No trace is found twice, so that no fuel left means that all are visited.
    have hlength := h.length_le
    exact ⟨i, h, .inr (show found.length ≤ i by omega)⟩
  | succ fuel ih =>
    cases hget : found[i]? with
    | none =>
      rw [visit_of_none hget]
      exact ⟨i, h, .inr (List.getElem?_eq_none_iff.1 hget)⟩
    | some t =>
      rw [visit_of_some hget]
      split
      · next hfull => exact ⟨i, h.extend hp hget, .inl (limit_le_of_extend hfull)⟩
      · next hopen => exact ih (h.advance hp hget (Bool.eq_false_iff.2 hopen)) (by omega)

/-- More fuel makes no difference. -/
theorem Search.visit_more (h : Search p limit first i found) (hp : p.Listed)
    (hfuel : p.records.size < i + fuel) (more : Nat) :
    p.visit limit (fuel + more) i found = p.visit limit fuel i found := by
  induction fuel generalizing i found with
  | zero =>
    have hlength := h.length_le
    have hend : found[i]? = none := List.getElem?_eq_none (by omega)
    rw [visit_of_none hend, visit_of_none hend]
  | succ fuel ih =>
    rw [show fuel + 1 + more = fuel + more + 1 by omega]
    cases hget : found[i]? with
    | none => rw [visit_of_none hget, visit_of_none hget]
    | some t =>
      rw [visit_of_some hget, visit_of_some hget]
      split
      · rfl
      · next hopen => exact ih (h.advance hp hget (Bool.eq_false_iff.2 hopen)) (by omega)

/-! ## Regions -/

/-- The blocks of a region as a list of traces: the latest traces of distinct addresses, `first` at
the head, each of the others led to by one before it. There are at most `limit` of them but for
`first` itself, and when there are fewer, none of the blocks that are reachable is missing. -/
structure History.IsRegion (calls : History) (limit : Nat) (first : Trace) (found : List Trace) :
    Prop where
  head : found.head? = some first
  entries : found.Pairwise fun t u => t.entry ≠ u.entry
  length_le : found.length ≤ max limit 1
  latest : ∀ t ∈ found, calls.latest? t.entry = some t
  origin : ∀ k t, found[k + 1]? = some t →
    ∃ j u, j ≤ k ∧ found[j]? = some u ∧ calls.Leads u t.entry
  complete : found.length < limit → ∀ t, calls.Reachable first t → t ∈ found

/-- A finished walk has found a region. -/
theorem Search.isRegion {j : Nat} (h : Search (ofHistory calls) limit first j found)
    (hend : limit ≤ found.length ∨ found.length ≤ j) : calls.IsRegion limit first found where
  head := h.head
  entries := h.entries
  length_le := h.length_le_limit
  latest := fun t ht => by
    rw [← trace?_ofHistory]
    exact h.recorded t ht
  origin := fun k t hk => by
    obtain ⟨i, u, hi, hu, hmem⟩ := h.sourced k t hk
    exact ⟨i, u, hi, hu, mem_candidates_ofHistory.1 hmem⟩
  complete := fun hroom t ht => by
    -- With room left the walk has visited everything, so what it has found is closed.
    have hvisited : found.length ≤ j := hend.resolve_left (by omega)
    induction ht with
    | first => exact List.mem_of_head? h.head
    | step _ leads recorded ih =>
      obtain ⟨i, hi, hget⟩ := List.getElem_of_mem ih
      have hsome := List.getElem?_eq_some_iff.2 ⟨hi, hget⟩
      rw [← trace?_ofHistory] at recorded
      exact h.closed i _ (by omega) hsome _ (mem_candidates_ofHistory.2 leads) _ recorded

/-- Around an entry with a recorded trace, discovery on the profile of any history ends and finds a
region. A smaller bound gives a prefix of it. -/
theorem discover_closes (calls : History) (limit : Nat) (entry : UInt32) (first : Trace)
    (hfirst : calls.latest? entry = some first) :
    ∃ found, (ofHistory calls).discover entry limit = some found ∧
      (∀ more, (ofHistory calls).visit limit ((ofHistory calls).records.size + 1 + more) 0 [first] =
        found) ∧
      calls.IsRegion limit first found ∧
      ∀ smaller ≤ limit, ∃ shorter,
        (ofHistory calls).discover entry smaller = some shorter ∧ shorter <+: found := by
  have hp := listed_ofHistory calls
  have htrace : (ofHistory calls).trace? entry = some first :=
    (trace?_ofHistory calls entry).trans hfirst
  have hstart : Search (ofHistory calls) limit first 0 [first] := search_first hp htrace
  have hdiscover (bound : Nat) : (ofHistory calls).discover entry bound =
      some ((ofHistory calls).visit bound ((ofHistory calls).records.size + 1) 0 [first]) := by
    rw [discover, htrace, Option.map_some]
  have hfuel : (ofHistory calls).records.size < 0 + ((ofHistory calls).records.size + 1) := by omega
  obtain ⟨j, hsearch, hend⟩ := hstart.visit hp hfuel
  refine ⟨_, hdiscover limit, hstart.visit_more hp hfuel, hsearch.isRegion hend, ?_⟩
  intro smaller hsmaller
  exact ⟨_, hdiscover smaller, visit_mono hsmaller _ 0 [first]⟩

/-- The end of a loop whose first block was recorded in two forms: first with one word, then as
`countdownTrace`. -/
def loopCalls : History :=
  [(⟨0x30, [0x03e00008, 0]⟩, 0x20), (⟨0x2c, [0]⟩, 0x30), (countdownTrace, 0x2c),
    (countdownTrace, 0x20), (⟨0x20, [0x2508ffff]⟩, 0x24)]

/-- Around the loop, discovery finds all three blocks and follows the fallthrough of the second. -/
theorem discover_closes_loop :
    loopCalls.latest? 0x20 = some countdownTrace ∧
      ∃ found, (ofHistory loopCalls).discover 0x20 4 = some found ∧
        (∀ more, (ofHistory loopCalls).visit 4 ((ofHistory loopCalls).records.size + 1 + more) 0
          [countdownTrace] = found) ∧
        loopCalls.IsRegion 4 countdownTrace found ∧
        (∀ smaller ≤ 4, ∃ shorter,
          (ofHistory loopCalls).discover 0x20 smaller = some shorter ∧ shorter <+: found) ∧
        found = [countdownTrace, ⟨0x2c, [0]⟩, ⟨0x30, [0x03e00008, 0]⟩] := by
  obtain ⟨found, hfound, hfuel, hregion, hpre⟩ :=
    discover_closes loopCalls 4 0x20 countdownTrace (by rfl)
  have hlist : (ofHistory loopCalls).discover 0x20 4 =
      some [countdownTrace, ⟨0x2c, [0]⟩, ⟨0x30, [0x03e00008, 0]⟩] := by rfl
  exact ⟨by rfl, found, hfound, hfuel, hregion, hpre,
    Option.some_inj.1 (hfound.symm.trans hlist)⟩

end HotRegion.Profile
