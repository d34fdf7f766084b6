import HotRegion.Proofs.Region.Cutting
import Mathlib.Algebra.Order.BigOperators.Group.List
import Mathlib.Algebra.Order.Ring.Nat
import Mathlib.Data.List.Perm.Subperm

/-!
# Segments of blocks

Overlaps are resolved round by round, and every round looks through all blocks again, while blocks
come and go. What it does to the code is simple, though: seen from the addresses where guest blocks
start, one block loses its end and the others keep their words. So there are fewer and fewer words,
the rounds come to an end, and every block is the beginning of the one that started at its address.

## Key results

- `Resolved.wordsAt?_eq` / `Resolved.addrs_eq` / `Resolved.tabled`: one round, seen from the addresses
- `exists_splits`: the rounds go through, and there is fuel for them
- `Splits.induction`: what every round keeps holds at the end
- `Linked.not_overlap`: when the search finds no overlap, there is none
- `splitOverlaps_segments`: the blocks of any traces, once all overlaps are resolved
-/

namespace HotRegion.Region

open Isa
open Machine (Trace wordAddr)
open Ascending (Sorted)

variable {r r' : Region} {s t x y outer inner tail : Slot} {a b c d : Block} {addr : UInt32}
  {i n : Nat}

/-! ## The guest blocks by address -/

/-- The address table lists the guest blocks, each under the address where it starts. -/
def Tabled (r : Region) : Prop :=
  ∀ x s, r.blockAt? x = some s ↔ ∃ b, r.block? s = some b ∧ b.isGuest = true ∧ b.entry = x

/-- In a linked region only the blocks that are found have to be told. -/
theorem Linked.tabled (h : Linked r)
    (hfound : ∀ s b, r.bare? s = some b → b.isGuest = true → r.blockAt? b.entry = some s) :
    Tabled r := by
  refine fun x s => ⟨fun hx => ?_, ?_⟩
  · obtain ⟨c, hc, hguest, hentry⟩ := h.addr_guest x s hx
    obtain ⟨b, hb, rfl⟩ := exists_block_of_bare? hc
    exact ⟨b, hb, hguest, hentry⟩
  · rintro ⟨b, hb, hguest, rfl⟩
    exact hfound s b.bare (bare?_of_block hb) hguest

/-- A guest block is found by its entry. -/
theorem Tabled.found (h : Tabled r) (hb : r.bare? s = some b) (hguest : b.isGuest = true) :
    r.blockAt? b.entry = some s := by
  obtain ⟨c, hc, rfl⟩ := exists_block_of_bare? hb
  exact (h c.entry s).2 ⟨c, hc, hguest, rfl⟩

/-- A change of edges alone leaves the table right. -/
theorem Tabled.of_sameBlocks (h : Tabled r) (h' : Linked r') (hsame : SameBlocks r r') :
    Tabled r' := by
  apply h'.tabled
  intro s b hb hguest
  rw [hsame.blockAt?]
  exact h.found (hsame.bare s ▸ hb) hguest

/-- The words of the guest block at an address. -/
def wordsAt? (r : Region) (addr : UInt32) : Option (List UInt32) :=
  (r.blockAt? addr).bind fun s => (r.bare? s).map Block.words

/-- The words at an address are those of the block there, whatever its edges. -/
theorem wordsAt?_of_bare (hx : r.blockAt? addr = some s) (hb : r.bare? s = some b) :
    r.wordsAt? addr = some b.words := by
  rw [wordsAt?, hx, Option.bind_some, hb, Option.map_some]

/-- The words at an address are those of the block there. -/
theorem wordsAt?_of_block (hx : r.blockAt? addr = some s) (hb : r.block? s = some b) :
    r.wordsAt? addr = some b.words := by
  rw [wordsAt?_of_bare hx (bare?_of_block hb)]
  rfl

namespace Resolved

variable {kept : Slot}

/-- A guest block keeps its place in the table. -/
theorem tabled (h : Resolved r r' outer inner kept addr b i) (ht : Tabled r)
    (ho : Overlap r outer inner addr b i) : Tabled r' := by
  apply h.linked.tabled
  intro s g hg hguest
  rw [h.at_eq]
  -- Blocks are found at their addresses: the first half, the one that is kept, and the others.
  by_cases hso : s = outer
  · -- The first half starts where the whole block did.
    subst hso
    rw [h.outer_at, Option.some.injEq] at hg
    have hentry : g.entry = b.entry := hg ▸ rfl
    rw [hentry, if_neg (UInt32.ne_of_lt ho.lt)]
    exact ho.outer_at
  by_cases hsk : s = kept
  · -- The block that is kept at the address of the cut starts there.
    obtain ⟨e, he, -, hentry⟩ := h.linked.addr_guest addr kept ((h.at_eq addr).trans (if_pos rfl))
    rw [hsk, he, Option.some.injEq] at hg
    rw [← hg, if_pos hentry, hsk]
  · have hsi : s ≠ inner := by
      rintro rfl
      rcases h.kept_new with heq | ⟨-, hgone⟩
      · exact hsk heq.symm
      · rw [hgone] at hg
        cases hg
    have hat := ht.found (h.other s hso hsi hsk ▸ hg) hguest
    rw [if_neg, hat]
    intro hentry
    rw [hentry, ho.inner_at, Option.some.injEq] at hat
    exact hsi hat.symm

/-- The outer block is cut, and every other block keeps its words. -/
theorem wordsAt?_eq (h : Resolved r r' outer inner kept addr b i) (hl : Linked r)
    (ho : Overlap r outer inner addr b i) (x : UInt32) :
    r'.wordsAt? x = if x = b.entry then some (b.words.take i) else r.wordsAt? x := by
  have hne : b.entry ≠ addr := UInt32.ne_of_lt ho.lt
  by_cases hxb : x = b.entry
  · have hat : r'.blockAt? x = some outer := by
      rw [h.at_eq, hxb, if_neg hne]
      exact ho.outer_at
    rw [if_pos hxb, wordsAt?_of_bare hat h.outer_at]
    rfl
  rw [if_neg hxb]
  by_cases hxa : x = addr
  · -- Whichever block is kept, it is the code of the one that was there before.
    obtain ⟨c, e, hc, he, hwords⟩ := h.kept_at
    rw [hxa, wordsAt?_of_bare ((h.at_eq addr).trans (if_pos rfl)) he, hwords,
      wordsAt?_of_bare ho.inner_at hc]
  · unfold wordsAt?
    rw [h.at_eq, if_neg hxa]
    cases hx : r.blockAt? x with
    | none => rfl
    | some s =>
      obtain ⟨g, hg, -, -⟩ := hl.addr_guest x s hx
      have hso : s ≠ outer := by
        rintro rfl
        exact hxb (hl.blockAt?_inj hx ho.outer_at)
      have hsi : s ≠ inner := by
        rintro rfl
        exact hxa (hl.blockAt?_inj hx ho.inner_at)
      have hsk : s ≠ kept := by
        -- Unless it is `inner`, the block that is kept was not there before.
        rintro rfl
        rcases h.kept_new with heq | ⟨hnone, -⟩
        · exact hsi heq
        · rw [hg] at hnone
          cases hnone
      rw [Option.bind_some, Option.bind_some, h.other s hso hsi hsk]

end Resolved

/-- The addresses where guest blocks start. -/
def addrs (r : Region) : List UInt32 := r.byAddr.map Prod.fst

/-- The addresses of a region are those where it finds blocks. -/
theorem Linked.mem_addrs (h : Linked r) : addr ∈ r.addrs ↔ ∃ s, r.blockAt? addr = some s := by
  simp only [addrs, List.mem_map, Prod.exists, exists_and_right, exists_eq_right,
    mem_byAddr h.addr_sorted]

/-- The addresses of a region are in order. -/
theorem Linked.sorted_addrs (h : Linked r) : Sorted UInt32.toNat r.addrs :=
  List.pairwise_map.2 h.addr_sorted

/-- A round neither adds nor drops an address. -/
theorem Resolved.addrs_eq {kept : Slot} (h : Resolved r r' outer inner kept addr b i)
    (hl : Linked r) (ho : Overlap r outer inner addr b i) : r'.addrs = r.addrs := by
  apply h.linked.sorted_addrs.ext hl.sorted_addrs
  intro x
  rw [h.linked.mem_addrs, hl.mem_addrs, h.at_eq]
  split
  · rename_i hx
    exact ⟨fun _ => ⟨inner, hx ▸ ho.inner_at⟩, fun _ => ⟨kept, rfl⟩⟩
  · rfl

/-! ## Rounds -/

/-- The number of words in the guest blocks. -/
def guestWords (r : Region) : Nat := (r.addrs.map fun x => ((r.wordsAt? x).getD []).length).sum

/-- A round takes words away. -/
theorem Resolved.guestWords_lt {kept : Slot} (h : Resolved r r' outer inner kept addr b i)
    (hl : Linked r) (ho : Overlap r outer inner addr b i) : r'.guestWords < r.guestWords := by
  obtain ⟨hi, -, -⟩ := Block.position?_eq_some ho.position
  have hold := wordsAt?_of_block ho.outer_at ho.block
  -- Only the block that is cut changes, and it loses its second half.
  have hcut : ((r'.wordsAt? b.entry).getD []).length < ((r.wordsAt? b.entry).getD []).length := by
    rw [h.wordsAt?_eq hl ho, if_pos rfl, hold]
    exact (List.length_take_le _ _).trans_lt hi
  unfold guestWords
  rw [h.addrs_eq hl ho]
  apply List.sum_lt_sum
  · intro x _
    by_cases hx : x = b.entry
    · exact hx ▸ Nat.le_of_lt hcut
    · rw [h.wordsAt?_eq hl ho, if_neg hx]
  · exact ⟨b.entry, hl.mem_addrs.2 ⟨outer, ho.outer_at⟩, hcut⟩

/-- No word of a guest block is counted twice. -/
theorem Linked.guestWords_le (h : Linked r) : r.guestWords ≤ r.wordCount := by
  let size := fun s => ((r.block? s).map Block.length).getD 0
  have hguest : r.guestWords = ((r.byAddr.map Prod.snd).map size).sum := by
    unfold guestWords addrs
    rw [List.map_map, List.map_map]
    congr 1
    apply List.map_congr_left
    rintro ⟨x, s⟩ hp
    obtain ⟨b, hb, -, -⟩ := h.addr_guest x s ((mem_byAddr h.addr_sorted).1 hp)
    obtain ⟨b, hb', rfl⟩ := exists_block_of_bare? hb
    simp only [Function.comp_apply, size, hb', Option.map_some, Option.getD_some]
    rw [wordsAt?_of_block ((mem_byAddr h.addr_sorted).1 hp) hb']
    rfl
  have hall : r.wordCount = ((r.blocks.map Prod.fst).map size).sum := by
    unfold wordCount
    rw [List.map_map, List.sum_eq_foldl, List.foldl_map]
    apply List.foldl_ext
    rintro n ⟨s, b⟩ hp
    simp only [Function.comp_apply, size, mem_blocks.1 hp, Option.map_some, Option.getD_some]
  -- Two addresses lead to different slots, since a block starts at one address only.
  have hnodup : (r.byAddr.map Prod.snd).Nodup := by
    rw [List.Nodup, List.pairwise_map]
    apply List.Pairwise.imp_of_mem _ h.addr_sorted
    rintro ⟨x, s⟩ ⟨y, t⟩ hx hy hlt rfl
    have hxy : x = y :=
      h.blockAt?_inj ((mem_byAddr h.addr_sorted).1 hx) ((mem_byAddr h.addr_sorted).1 hy)
    exact Nat.lt_irrefl _ (hxy ▸ hlt)
  have hsub : r.byAddr.map Prod.snd ⊆ r.blocks.map Prod.fst := by
    intro s hs
    obtain ⟨⟨x, s⟩, hp, rfl⟩ := List.mem_map.1 hs
    obtain ⟨b, hb, -, -⟩ := h.addr_guest x s ((mem_byAddr h.addr_sorted).1 hp)
    obtain ⟨b, hs, rfl⟩ := exists_block_of_bare? hb
    exact List.mem_map.2 ⟨(s, b), mem_blocks.2 hs, rfl⟩
  obtain ⟨l, hperm, hsublist⟩ := List.subperm_of_subset hnodup hsub
  rw [hguest, hall, ← (hperm.map size).sum_eq]
  exact (hsublist.map size).sum_le_sum fun _ _ => Nat.zero_le _

/-- The rounds that resolve all overlaps: one after the other while there is an overlap. Every round
cuts a block, at an instruction that is not a delay slot. -/
inductive Splits : Region → Nat → Region → Prop where
  | done {r : Region} (h : r.findOverlap = none) : Splits r 0 r
  | cut {r r₁ r' : Region} {outer inner : Slot} {addr : UInt32} {b : Block} {i n : Nat}
    {halves : Region × Slot} (found : r.findOverlap = some (outer, inner))
    (overlap : Overlap r outer inner addr b i)
    (split : (r.eraseBlockAt addr).splitAt outer addr = .ok halves)
    (resolved : r.splitOverlap outer inner = .ok r₁) (rest : Splits r₁ n r') : Splits r (n + 1) r'

/-- A round goes through, and there are fewer words afterwards. -/
theorem Linked.exists_round (h : Linked r) (hfind : r.findOverlap = some (outer, inner)) :
    ∃ r₁, r.splitOverlap outer inner = .ok r₁ ∧ Linked r₁ ∧ r₁.guestWords < r.guestWords ∧
      ∀ n r', Splits r₁ n r' → Splits r (n + 1) r' := by
  obtain ⟨addr, b, i, ho⟩ := overlap_of_findOverlap h hfind
  obtain ⟨r₁, kept, ⟨halves, hcut⟩, hok, hr⟩ := splitOverlap_spec h ho
  exact ⟨r₁, hok, hr.linked, hr.guestWords_lt h ho, fun n r' => .cut hfind ho hcut hok⟩

/-- The rounds all go through and are counted, and there is fuel for them. -/
theorem exists_splits (fuel k : Nat) (h : Linked r) (hfuel : r.guestWords ≤ fuel) :
    ∃ r' n, splitOverlapsFrom fuel r k = .ok (r', k + n) ∧ Splits r n r' := by
  induction fuel generalizing r k with
  | zero =>
    cases hfind : r.findOverlap with
    | none => exact ⟨r, 0, rfl, .done hfind⟩
    | some p =>
      -- Without words there is nothing left to cut.
      obtain ⟨r₁, -, -, hlt, -⟩ := h.exists_round hfind
      omega
  | succ fuel ih =>
    unfold splitOverlapsFrom
    cases hfind : r.findOverlap with
    | none => exact ⟨r, 0, rfl, .done hfind⟩
    | some p =>
      obtain ⟨r₁, hok, h₁, hlt, hcut⟩ := h.exists_round hfind
      -- The next round has fewer words to go through, and one unit of fuel less.
      obtain ⟨r', n, hrun, hsplits⟩ := ih (k + 1) h₁ (by omega)
      refine ⟨r', n + 1, ?_, hcut n r' hsplits⟩
      change (r.splitOverlap p.1 p.2 >>= fun r => _) = _
      rw [hok, Nat.add_comm n 1, ← Nat.add_assoc]
      exact hrun

/-- What holds of a region and is kept by every round holds once all overlaps are resolved. -/
theorem Splits.induction {P : Region → Prop}
    (hround : ∀ r r' outer inner kept addr b i, Linked r → Overlap r outer inner addr b i →
      Resolved r r' outer inner kept addr b i → P r → P r')
    (hs : Splits r n r') (h : Linked r) (hp : P r) : Linked r' ∧ P r' ∧ r'.findOverlap = none := by
  induction hs with
  | done hnone => exact ⟨h, hp, hnone⟩
  | @cut r r₁ r' outer inner addr b i n halves found overlap split resolved rest ih =>
    obtain ⟨r₂, kept, -, hok, hr⟩ := splitOverlap_spec h overlap
    obtain rfl : r₁ = r₂ := Except.ok.inj (resolved.symm.trans hok)
    exact ih hr.linked (hround r r₁ outer inner kept addr b i h overlap hr hp)

/-! ## Cut blocks -/

/-- The blocks of `r` are those of `r₀`, some of them cut short. Where a block was cut another one
starts, and its last instruction has no delay slot. -/
structure Trimmed (r₀ r : Region) : Prop where
  addrs : r.addrs = r₀.addrs
  words : ∀ x ws, r.wordsAt? x = some ws → ∃ ws₀, r₀.wordsAt? x = some ws₀ ∧ ws <+: ws₀ ∧
    (ws ≠ ws₀ → ws ≠ [] ∧ wordAddr x ws.length ∈ r.addrs ∧
      ∀ w, ws.getLast? = some w → (decode w).hasDelaySlot = false)

/-- A region is trimmed by nothing. -/
theorem Trimmed.refl (r : Region) : Trimmed r r where
  addrs := rfl
  words _ ws hws := ⟨ws, hws, List.prefix_rfl, fun hne => absurd rfl hne⟩

/-- A round only cuts blocks shorter. -/
theorem Trimmed.round {r₀ : Region} {kept : Slot} (ht : Trimmed r₀ r) (h : Linked r)
    (ho : Overlap r outer inner addr b i) (hr : Resolved r r' outer inner kept addr b i) :
    Trimmed r₀ r' := by
  have haddrs := hr.addrs_eq h ho
  refine ⟨haddrs.trans ht.addrs, fun x ws hws => ?_⟩
  rw [hr.wordsAt?_eq h ho] at hws
  split at hws
  · rename_i hx
    obtain rfl := Option.some.inj hws
    obtain ⟨hlen, haddr, -⟩ := Block.position?_eq_some ho.position
    have hi := Block.position?_pos ho.position ho.lt
    have hlength : (b.words.take i).length = i := List.length_take_of_le (Nat.le_of_lt hlen)
    obtain ⟨ws₀, hws₀, hprefix, -⟩ :=
      ht.words x b.words (hx ▸ wordsAt?_of_block ho.outer_at ho.block)
    refine ⟨ws₀, hws₀, (List.take_prefix i _).trans hprefix, fun _ => ⟨?_, ?_, fun w hw => ?_⟩⟩
    · exact List.ne_nil_of_length_pos (hlength.symm ▸ hi)
    · rw [hlength, hx, haddr, haddrs]
      exact h.mem_addrs.2 ⟨inner, ho.inner_at⟩
    · -- The last word is the one before the cut, and the cut is not at a delay slot.
      rw [List.getLast?_eq_getElem?, hlength, List.getElem?_take, if_pos (by omega)] at hw
      exact Block.not_hasDelaySlot_of_not_isDelaySlot ho.position ho.not_delay hi hw
  · rw [haddrs]
    exact ht.words x ws hws

/-! ## No overlap is left -/

/-- What is below an address comes first in an ordered list. -/
private theorem mem_takeWhile_lt {l : List (UInt32 × Slot)} {p : UInt32 × Slot}
    (h : Sorted (fun p : UInt32 × Slot => p.1.toNat) l) (hp : p ∈ l) (hlt : p.1 < addr) :
    p ∈ l.takeWhile (·.1 < addr) := by
  induction l with
  | nil => cases hp
  | cons q l ih =>
    obtain ⟨hq, hl⟩ := List.pairwise_cons.1 h
    rcases List.mem_cons.1 hp with rfl | hp
    · rw [List.takeWhile_cons_of_pos (by simpa using hlt)]
      exact List.mem_cons_self
    · -- What comes before `p` lies below it.
      have hqlt : q.1 < addr := UInt32.lt_trans (UInt32.lt_iff_toNat_lt.2 (hq p hp)) hlt
      rw [List.takeWhile_cons_of_pos (by simpa using hqlt)]
      exact List.mem_cons_of_mem _ (ih hl hp)

/-- The search finds every overlap. -/
theorem Linked.not_overlap (h : Linked r) (hnone : r.findOverlap = none) :
    ¬ Overlap r outer inner addr b i := by
  intro ho
  have hinner := (mem_byAddr h.addr_sorted).2 ho.inner_at
  have hfind := List.findSome?_eq_none_iff.1 hnone (addr, inner) hinner
  simp only [Option.map_eq_none_iff, List.find?_eq_none, List.mem_reverse] at hfind
  apply hfind (b.entry, outer)
  · exact mem_takeWhile_lt h.addr_sorted ((mem_byAddr h.addr_sorted).2 ho.outer_at) ho.lt
  · simp [overlaps, ho.block, Block.contains, ho.position, ho.not_delay]

/-! ## Traces -/

/-- A new region lists no blocks. -/
theorem tabled_new (entryAddr : UInt32) : Tabled (new entryAddr) := by
  apply (linked_new entryAddr).tabled
  intro s b hb hguest
  obtain ⟨e, he, rfl⟩ := exists_block_of_bare? hb
  have hs : s = entrySlot := Nat.lt_one_iff.1 (lt_size_of_block he)
  subst hs
  obtain rfl : Block.entryBlock = e := Option.some.inj he
  cases hguest

/-- A block that is put in under a new address is found there. -/
theorem Tabled.insertBlock (ht : Tabled r) (h : Linked r) (hb : b.Isolated)
    (hnew : r.blockAt? b.entry = none) : Tabled (r.insertBlock b).1 := by
  obtain ⟨r', s, heq, h', hnone, hs, hother, -, hat, -⟩ := insertBlock_spec h hb
  rw [heq]
  apply h'.tabled
  intro t g hg hguest
  rw [hat]
  by_cases hts : t = s
  · rw [hts, bare?_of_block hs, Option.some.injEq] at hg
    subst hg
    rw [if_pos ⟨hguest, rfl⟩, hts]
  · have hold : r.bare? t = some g := by
      rw [← hg, bare?, bare?, hother t hts]
    have hx := ht.found hold hguest
    rw [if_neg, hx]
    rintro ⟨-, hentry⟩
    rw [hentry, hnew] at hx
    cases hx

/-- What holds while the blocks of traces are put in. -/
private structure Stocked (r : Region) : Prop where
  linked : Linked r
  tabled : Tabled r
  entry : ∃ b, r.block? entrySlot = some b

/-- The blocks of a region stay well shaped when a trace is added. -/
private theorem Stocked.addTrace (h : Stocked r) (indirect : UInt32 → List UInt32) (t : Trace) :
    Stocked (r.addTrace indirect t) := by
  unfold Region.addTrace
  split
  · exact h
  · rename_i hskip
    have hnew : r.blockAt? t.entry = none := by
      simp only [Bool.or_eq_true, not_or, Option.not_isSome_iff_eq_none] at hskip
      exact hskip.2
    let b : Block := { Block.ofTrace t with
      indirectTargets :=
        if (Block.ofTrace t).endsInJumpReg then Ascending.ofList UInt32.toNat (indirect t.entry)
        else [] }
    have hb : b.Isolated := ⟨rfl, rfl⟩
    obtain ⟨r', s, heq, h', hnone, hs, hother, -⟩ := insertBlock_spec h.linked hb
    change Stocked (r.insertBlock b).1
    refine ⟨?_, h.tabled.insertBlock h.linked hb hnew, ?_⟩
    · rw [heq]
      exact h'
    · -- The slot of the new block was free, so it is not the one of the synthetic entry.
      obtain ⟨e, he⟩ := h.entry
      have hne : entrySlot ≠ s := by
        rintro rfl
        rw [he] at hnone
        cases hnone
      rw [heq]
      exact ⟨e, (hother _ hne).trans he⟩

/-- The blocks of a region stay well shaped when traces are added one after the other. -/
private theorem Stocked.foldl_addTrace (h : Stocked r) (indirect : UInt32 → List UInt32)
    (traces : List Trace) : Stocked (traces.foldl (Region.addTrace indirect) r) := by
  induction traces generalizing r with
  | nil => exact h
  | cons t traces ih => exact ih (h.addTrace indirect t)

/-- Whatever the traces, their blocks form a region. -/
theorem exists_ofTraces (traces : List Trace) (indirect : UInt32 → List UInt32) :
    ∃ r, ofTraces traces indirect = .ok r ∧ Linked r ∧ Tabled r := by
  have hfilled : ∀ entryAddr, Stocked (traces.foldl (addTrace indirect) (new entryAddr)) := by
    intro entryAddr
    apply Stocked.foldl_addTrace
    exact ⟨linked_new entryAddr, tabled_new entryAddr, _, rfl⟩
  unfold ofTraces
  simp only
  split
  · rename_i first hfirst
    obtain ⟨h, ht, e, he⟩ := hfilled _
    obtain ⟨c, hc, -⟩ := h.addr_guest _ _ hfirst
    obtain ⟨r, hok, h', hsame, -⟩ := addEdge_spec h he (exists_block_iff_bare?.2 ⟨c, hc⟩)
    exact ⟨r, hok, h', ht.of_sameBlocks h' hsame⟩
  · obtain ⟨h, ht, -⟩ := hfilled _
    exact ⟨_, rfl, h, ht⟩

/-- Wiring blocks that are there changes nothing but edges. -/
private theorem foldlM_wireBlock (l : List (Slot × Block)) (h : Linked r)
    (hl : ∀ p ∈ l, ∃ b, r.block? p.1 = some b) :
    ∃ r', l.foldlM (fun r p => r.wireBlock p.1) r = Except.ok r' ∧ Linked r' ∧ SameBlocks r r' := by
  induction l generalizing r with
  | nil => exact ⟨r, rfl, h, .refl r⟩
  | cons p l ih =>
    obtain ⟨b, hb⟩ := hl p List.mem_cons_self
    obtain ⟨r₁, hok₁, h₁, hsame₁, -⟩ := wireBlock_spec h hb
    obtain ⟨r', hok, h', hsame⟩ := ih h₁ fun q hq =>
      hsame₁.live.2 (hl q (List.mem_cons_of_mem _ hq))
    refine ⟨r', ?_, h', hsame₁.trans hsame⟩
    rw [List.foldlM_cons, hok₁]
    exact hok

/-- Wiring goes through and changes nothing but edges. -/
theorem exists_wire (h : Linked r) : ∃ r', r.wire = .ok r' ∧ Linked r' ∧ SameBlocks r r' := by
  apply foldlM_wireBlock _ h
  intro p hp
  exact ⟨p.2, mem_blocks.1 (List.mem_of_mem_filter hp)⟩

/-- Whatever the traces, resolving the overlaps of their blocks goes through. One round after the
other is made, which cuts a block but not before a delay slot, and they are counted. In the end an
instruction of a guest block where another one starts further on is in a delay slot. The guest blocks
still start where they did, each is the beginning of the block that started there before, and where
it was cut another one starts. -/
theorem splitOverlaps_segments (traces : List Trace) (indirect : UInt32 → List UInt32) :
    ∃ start r r' n, ofTraces traces indirect = .ok start ∧ start.wire = .ok r ∧
      r.splitOverlaps = .ok (r', n) ∧ Splits r n r' ∧ Tabled r' ∧ r'.addrs = r.addrs ∧
      (∀ s t a b i, r'.block? s = some a → r'.block? t = some b → a.isGuest = true →
        b.isGuest = true → a.entry < b.entry → a.position? b.entry = some i →
        0 < i ∧ ∃ w, a.words[i - 1]? = some w ∧ (decode w).hasDelaySlot = true) ∧
      ∀ s b, r'.block? s = some b → b.isGuest = true → ∃ s₀ c, r.block? s₀ = some c ∧
        c.isGuest = true ∧ b.entry = c.entry ∧ b.words <+: c.words ∧
        (b.words ≠ c.words → b.words ≠ [] ∧ wordAddr b.entry b.length ∈ r'.addrs ∧
          ∀ w, b.words.getLast? = some w → (decode w).hasDelaySlot = false) := by
  obtain ⟨start, hstart, hlinked, htabled⟩ := exists_ofTraces traces indirect
  obtain ⟨r, hwire, h, hsame⟩ := exists_wire hlinked
  have ht : Tabled r := htabled.of_sameBlocks h hsame
  obtain ⟨r', n, hok, hsplits⟩ := exists_splits r.wordCount 0 h h.guestWords_le
  rw [Nat.zero_add] at hok
  obtain ⟨h', ⟨ht', htrim⟩, hnone⟩ := hsplits.induction
    (fun r₁ r₂ outer inner kept addr b i h₁ ho hr (hp : Tabled r₁ ∧ Trimmed r r₁) =>
      ⟨hr.tabled hp.1 ho, hp.2.round h₁ ho hr⟩) h ⟨ht, .refl r⟩
  refine ⟨start, r, r', n, hstart, hwire, hok, hsplits, ht', htrim.addrs,
    fun s t a b i ha hb haguest hbguest hlt hpos => ?_, fun s b hb hguest => ?_⟩
  · rw [← Block.isDelaySlot_iff hpos]
    -- Otherwise the search would have found the two blocks.
    by_contra hdelay
    apply h'.not_overlap hnone
    exact ⟨(ht' b.entry t).2 ⟨b, hb, hbguest, rfl⟩, (ht' a.entry s).2 ⟨a, ha, haguest, rfl⟩, ha, hlt,
      hpos, by simpa using hdelay⟩
  · have hat := (ht' b.entry s).2 ⟨b, hb, hguest, rfl⟩
    obtain ⟨ws, hws, hprefix, hcut⟩ := htrim.words b.entry b.words (wordsAt?_of_block hat hb)
    obtain ⟨s₀, hs₀⟩ := h.mem_addrs.1 (htrim.addrs ▸ h'.mem_addrs.2 ⟨s, hat⟩)
    obtain ⟨c, hc, hcguest, hentry⟩ := (ht b.entry s₀).1 hs₀
    rw [wordsAt?_of_block hs₀ hc, Option.some.injEq] at hws
    subst hws
    exact ⟨s₀, c, hc, hcguest, hentry.symm, hprefix, hcut⟩

/-- Three traces, each of which starts inside the one before. The second is the end of the first, and
the third is other code. -/
def nestedTraces : List Trace :=
  [⟨0x100, [0x24080001, 0x24090002, 0x240a0003, 0x08000080, 0]⟩,
    ⟨0x104, [0x24090002, 0x240a0003, 0x08000080, 0]⟩, ⟨0x108, [0x240a0004, 0x08000080, 0]⟩]

example : ((do
    let r ← ofTraces nestedTraces fun _ => []
    let (r, n) ← (← r.wire).splitOverlaps
    return (r.addrs, r.guestWords, n)) : Except GraphError (List UInt32 × Nat × Nat)).toOption =
      some ([0x100, 0x104, 0x108], 5, 2) := by decide +kernel

end HotRegion.Region
