import HotRegion.Proofs.Region.Cutting

/-!
# Splitting overlapping blocks

Blocks of traces may start in the middle of one another. Resolving such an overlap cuts one of the
two blocks, and in each case, whichever block stands at the cut afterwards, the region stays traced.

## Key results

- `Traced.splitOverlap`: resolving one overlap keeps the region traced
- `Traced.splitOverlaps`: so does resolving all of them
-/

namespace HotRegion.Region

open Isa

variable {r r₁ r' : Region} {x y outer inner tail : Slot} {a b c d e : Block} {addr target : UInt32}
  {i : Nat} {K : UInt32 × UInt32 → Prop}

/-- More known targets of a register jump leave the others. -/
theorem Block.mem_staticTargets_union {targets : List UInt32} (h : addr ∈ b.staticTargets) :
    addr ∈ Block.staticTargets { b with
      indirectTargets := Ascending.union UInt32.toNat b.indirectTargets targets } := by
  let c : Block := { b with
    indirectTargets := Ascending.union UInt32.toNat b.indirectTargets targets }
  have htr : c.transfer = b.transfer := rfl
  change addr ∈ c.staticTargets
  cases hb : b.transfer with
  | none =>
    simp only [staticTargets, htr, hb] at h ⊢
    exact h
  | some tr =>
    simp only [staticTargets, htr, hb] at h ⊢
    split at h
    · rename_i hreg
      rw [if_pos hreg]
      exact (Ascending.mem_union (fun _ _ => UInt32.toNat_inj.1) _ _ _).2 (.inl h)
    · rename_i hreg
      rw [if_neg hreg]
      exact h

/-! ## The halves of the block -/

namespace Overlap

/-- The block that is cut is a guest block. -/
theorem guest (ho : Overlap r outer inner addr b i) (h : Woven K r) : b.bare.Guest K :=
  h.guest outer b.bare (h.blockAt?_ne_entry ho.outer_at) (bare?_of_block ho.block)

/-- Its words have the shape of a guest block. -/
theorem shaped (ho : Overlap r outer inner addr b i) (h : Woven K r) : b.Shaped :=
  ⟨(ho.guest h).shaped.ne_nil, (ho.guest h).shaped.position⟩

/-- The second half starts at the cut. -/
theorem tail_entry (ho : Overlap r outer inner addr b i) : (b.splitAt i).2.entry = addr :=
  (Block.position?_eq_some ho.position).2.1

/-- The word before the cut transfers no control, since no cut is at a delay slot. -/
theorem before_cut (ho : Overlap r outer inner addr b i) {w : UInt32}
    (hw : b.words[i - 1]? = some w) : (decode w).hasDelaySlot = false :=
  Block.not_hasDelaySlot_of_not_isDelaySlot ho.position ho.not_delay
    (Block.position?_pos ho.position ho.lt) hw

/-- The first half goes on at the cut and nowhere else. -/
theorem head_targets (ho : Overlap r outer inner addr b i) (h : Woven K r) :
    (b.splitAt i).1.staticTargets = [addr] := by
  obtain ⟨hlen, haddr, -⟩ := Block.position?_eq_some ho.position
  rw [← haddr]
  exact Block.staticTargets_head (ho.shaped h) (Block.position?_pos ho.position ho.lt) hlen
    (fun _ => ho.before_cut) (ho.guest h).not_patch

/-- The second half goes on where the block did. -/
theorem tail_targets (ho : Overlap r outer inner addr b i) (h : Woven K r) :
    (b.splitAt i).2.staticTargets = b.staticTargets :=
  Block.staticTargets_tail (ho.shaped h) (Block.position?_eq_some ho.position).1
    (fun _ => ho.before_cut) (ho.guest h).not_patch

/-- The first half is a guest block. -/
theorem head_guest (ho : Overlap r outer inner addr b i) (h : Woven K r) :
    (b.splitAt i).1.bare.Guest K :=
  have hguest := ho.guest h
  have hshaped := Block.shaped_head (ho.shaped h) (Block.position?_pos ho.position ho.lt)
    (Block.position?_eq_some ho.position).1 fun _ => ho.before_cut
  ⟨hguest.not_patch, hguest.entry_ne, ⟨hshaped.ne_nil, hshaped.position⟩,
    fun p hp => hguest.code p (Block.mem_code_of_mem_head hp)⟩

/-- So is the second half. Its address is that of another guest block. -/
theorem tail_guest (ho : Overlap r outer inner addr b i) (h : Woven K r) :
    (b.splitAt i).2.Guest K := by
  have hmark : addr ≠ entryMark := by
    obtain ⟨c, hc, _, rfl⟩ := h.linked.addr_guest _ _ ho.inner_at
    exact (h.guest _ c (h.blockAt?_ne_entry ho.inner_at) hc).entry_ne
  exact ⟨rfl, ho.tail_entry ▸ hmark,
    Block.shaped_tail (ho.shaped h) (Block.position?_eq_some ho.position).1,
    fun p hp => (ho.guest h).code p (Block.mem_code_of_mem_tail hp)⟩

end Overlap

/-! ## The cut -/

namespace Cut

/-- The second half is not in the slot of the synthetic entry. -/
theorem tail_ne_entry (hcut : Cut r r₁ outer tail addr b i) (h : Woven K r) : tail ≠ entrySlot :=
  (hcut.ne_tail h.entry).symm

/-- The synthetic entry goes where it went. -/
theorem succs_entry (hcut : Cut r r₁ outer tail addr b i) (h : Woven K r)
    (ho : Overlap r outer inner addr b i) : y ∈ r₁.succs entrySlot ↔ y ∈ r.succs entrySlot := by
  rw [hcut.succ_iff]
  simp [(h.blockAt?_ne_entry ho.outer_at).symm, (hcut.tail_ne_entry h).symm]

/-- All blocks but the second half start where they did. -/
theorem exists_old (hcut : Cut r r₁ outer tail addr b i) (ho : Overlap r outer inner addr b i)
    (hx : x ≠ tail) (ha : r₁.bare? x = some a) : ∃ a', r.bare? x = some a' ∧ a'.entry = a.entry := by
  rcases hcut.cases ha with ⟨rfl, rfl⟩ | ⟨rfl, -⟩ | ⟨-, -, ha⟩
  · exact ⟨b.bare, bare?_of_block ho.block, rfl⟩
  · exact absurd rfl hx
  · exact ⟨a, ha, rfl⟩

/-- The region after the cut at an overlap is woven. -/
theorem woven (hcut : Cut r r₁ outer tail addr b i) (h : Woven K r)
    (ho : Overlap r outer inner addr b i) : Woven K r₁ where
  linked := hcut.linked
  entry := by
    rw [hcut.other _ (h.blockAt?_ne_entry ho.outer_at).symm (hcut.tail_ne_entry h).symm]
    exact h.entry
  no_back x hx := by
    rcases (hcut.succ_iff x entrySlot).1 hx with ⟨hx, -⟩ | ⟨-, hx⟩ | ⟨-, hx⟩
    · exact h.no_back _ hx
    · exact h.no_back _ hx
    · exact hcut.tail_ne_entry h hx.symm
  guest x a hx ha := by
    rcases hcut.cases ha with ⟨-, rfl⟩ | ⟨-, rfl⟩ | ⟨-, -, ha⟩
    · exact ho.head_guest h
    · exact ho.tail_guest h
    · exact h.guest x a hx ha
  edge x y a d hx hxy ha hd := by
    rcases (hcut.succ_iff x y).1 hxy with ⟨hxy, hxo⟩ | ⟨rfl, hoy⟩ | ⟨rfl, rfl⟩
    · obtain ⟨hxt, hyt⟩ := h.linked.ne_of_free hcut.free hxy
      obtain ⟨d', hd', hentry⟩ := hcut.exists_old ho hyt hd
      rw [← hentry]
      exact h.edge x y a d' hx hxy (hcut.other x hxo hxt ▸ ha) hd'
    · -- The second half goes on where the whole block did.
      obtain ⟨-, hyt⟩ := h.linked.ne_of_free hcut.free hoy
      obtain ⟨d', hd', hentry⟩ := hcut.exists_old ho hyt hd
      rw [hcut.tail_at, Option.some.injEq] at ha
      rw [← hentry, ← ha, ho.tail_targets h]
      exact h.edge outer y b.bare d' (h.blockAt?_ne_entry ho.outer_at) hoy (bare?_of_block ho.block)
        hd'
    · -- The first half goes on at the cut, where the second half starts.
      rw [hcut.tail_at, Option.some.injEq] at hd
      rw [hcut.head_at, Option.some.injEq] at ha
      rw [← hd, ← ha, Block.staticTargets_bare, ho.head_targets h, ho.tail_entry]
      exact List.mem_singleton_self _
  no_phis x a ha := by
    rcases hcut.cases ha with ⟨-, rfl⟩ | ⟨-, rfl⟩ | ⟨-, -, ha⟩
    · exact h.no_phis outer b.bare (bare?_of_block ho.block)
    · rfl
    · exact h.no_phis x a ha

/-- The blocks other than the second half and `inner` are found where they were. -/
theorem indexed (hcut : Cut r r₁ outer tail addr b i) (ho : Overlap r outer inner addr b i)
    (hw : Wired r) (hx : x ≠ entrySlot) (hinner : x ≠ inner) (htail : x ≠ tail)
    (ha : r₁.bare? x = some a) : a.entry ≠ addr ∧ r.blockAt? a.entry = some x := by
  rcases hcut.cases ha with ⟨rfl, rfl⟩ | ⟨rfl, -⟩ | ⟨-, -, ha⟩
  · exact ⟨UInt32.ne_of_lt ho.lt, ho.outer_at⟩
  · exact absurd rfl htail
  · have hat := hw.indexed x a hx ha
    refine ⟨fun heq => hinner ?_, hat⟩
    rw [heq] at hat
    exact (Option.some.inj (ho.inner_at.symm.trans hat)).symm

/-- The edges of the blocks other than the halves are still there. -/
theorem complete (hcut : Cut r r₁ outer tail addr b i) (hw : Wired r) (hx : x ≠ entrySlot)
    (houter : x ≠ outer) (htail : x ≠ tail) (ha : r₁.bare? x = some a)
    (htarget : target ∈ a.staticTargets) (hy : r.blockAt? target = some y) : y ∈ r₁.succs x :=
  (hcut.succ_iff x y).2
    (.inl ⟨hw.complete x a target y hx (hcut.other x houter htail ▸ ha) htarget hy, houter⟩)

end Cut

/-! ## The second half in the place of the other block -/

namespace MergedInto

/-- Each block that is left is the second half or was there before. -/
theorem cases (hm : MergedInto r r' inner tail d e) (ha : r'.bare? x = some a) :
    x ≠ inner ∧ (x = tail ∧ a = e ∨ x ≠ tail ∧ r.bare? x = some a) := by
  rw [hm.bare_eq] at ha
  by_cases hxi : x = inner
  · rw [if_pos hxi] at ha
    cases ha
  · rw [if_neg hxi] at ha
    by_cases hxt : x = tail
    · rw [if_pos hxt, Option.some.injEq] at ha
      exact ⟨hxi, .inl ⟨hxt, ha.symm⟩⟩
    · rw [if_neg hxt] at ha
      exact ⟨hxi, .inr ⟨hxt, ha⟩⟩

/-- The second half starts where it did. -/
theorem entry_eq (hm : MergedInto r r' inner tail d e) : e.entry = d.entry := by
  obtain ⟨targets, rfl⟩ := hm.block_eq
  rfl

/-- The second half goes on at least where it did. -/
theorem targets_subset (hm : MergedInto r r' inner tail d e) (h : addr ∈ d.staticTargets) :
    addr ∈ e.staticTargets := by
  obtain ⟨targets, rfl⟩ := hm.block_eq
  exact Block.mem_staticTargets_union h

/-- The blocks that are left start where they did and go on at least where they did. -/
theorem exists_old (hm : MergedInto r r' inner tail d e) (hd : r.bare? tail = some d.bare)
    (ha : r'.bare? x = some a) : ∃ a', r.bare? x = some a' ∧ a'.entry = a.entry ∧
      ∀ addr ∈ a'.staticTargets, addr ∈ a.staticTargets := by
  rcases hm.cases ha with ⟨-, ⟨rfl, rfl⟩ | ⟨-, ha⟩⟩
  · exact ⟨d.bare, hd, hm.entry_eq.symm, fun _ => hm.targets_subset⟩
  · exact ⟨a, ha, rfl, fun _ haddr => haddr⟩

/-- The region stays woven if both blocks start at one address. -/
theorem woven (hm : MergedInto r r' inner tail d e) (h : Woven K r) (hc : r.bare? inner = some c)
    (hd : r.bare? tail = some d.bare) (hentry : c.entry = d.entry) (hinner : inner ≠ entrySlot)
    (htail : tail ≠ entrySlot) : Woven K r' where
  linked := hm.linked
  entry := by
    rw [hm.bare_eq, if_neg hinner.symm, if_neg htail.symm]
    exact h.entry
  no_back x hx := by
    rcases (hm.succ_iff x entrySlot).1 hx with ⟨hx, -⟩ | ⟨-, -, hx⟩ | ⟨-, addr, -, hx⟩
    · exact h.no_back x hx
    · exact htail hx.symm
    · exact h.blockAt?_ne_entry hx rfl
  guest x a hx ha := by
    rcases hm.cases ha with ⟨-, ⟨-, rfl⟩ | ⟨-, ha⟩⟩
    · have hguest := h.guest tail d.bare htail hd
      obtain ⟨targets, rfl⟩ := hm.block_eq
      exact ⟨hguest.not_patch, hguest.entry_ne, ⟨hguest.shaped.ne_nil, hguest.shaped.position⟩,
        hguest.code⟩
    · exact h.guest x a hx ha
  edge x y a k hx hxy ha hk := by
    obtain ⟨a', ha', -, htargets⟩ := hm.exists_old hd ha
    obtain ⟨k', hk', hkentry, -⟩ := hm.exists_old hd hk
    rw [← hkentry]
    rcases (hm.succ_iff x y).1 hxy with ⟨hxy, -, -⟩ | ⟨hxi, -, rfl⟩ | ⟨rfl, addr, haddr, hy⟩
    · exact htargets _ (h.edge x y a' k' hx hxy ha' hk')
    · -- The edge went to `inner`, which starts where the second half does.
      have hedge := h.edge x inner a' c hx hxi ha' hc
      rw [hd, Option.some.injEq] at hk'
      rw [← hk']
      exact htargets _ (hentry ▸ hedge)
    · -- The edge was made along the code of the second half.
      obtain ⟨g, hg, -, rfl⟩ := h.linked.addr_guest addr y hy
      rcases hm.cases ha with ⟨-, ⟨-, rfl⟩ | ⟨hne, -⟩⟩
      · rw [hk', Option.some.injEq] at hg
        rw [hg]
        exact haddr
      · exact absurd rfl hne
  no_phis x a ha := by
    rcases hm.cases ha with ⟨-, ⟨-, rfl⟩ | ⟨-, ha⟩⟩
    · obtain ⟨targets, rfl⟩ := hm.block_eq
      exact h.no_phis tail d.bare hd
    · exact h.no_phis x a ha

/-- The region is wired again once the second half has taken over the edges of `inner`. -/
theorem wired (hm : MergedInto r₁ r' inner tail d e) (hcut : Cut r r₁ outer tail addr b i)
    (h : Woven K r) (ho : Overlap r outer inner addr b i) (hentry : d.entry = addr)
    (hw : Wired r) : Wired r' := by
  obtain ⟨hot, hit⟩ := ho.ne_tail h.linked hcut
  refine ⟨fun x a hx ha => ?_, fun x a target y hx ha htarget hy => ?_⟩
  · rw [hm.at_eq, hcut.at_eq]
    rcases hm.cases ha with ⟨hxi, ⟨rfl, rfl⟩ | ⟨hxt, ha⟩⟩
    · exact if_pos (hm.entry_eq.trans hentry)
    · obtain ⟨hne, hat⟩ := hcut.indexed ho hw hx hxi hxt ha
      rw [if_neg hne, hat]
  · rw [hm.at_eq] at hy
    rcases hm.cases ha with ⟨hxi, ⟨rfl, rfl⟩ | ⟨hxt, ha⟩⟩
    · exact (hm.succ_iff x y).2 (.inr (.inr ⟨rfl, target, htarget, hy⟩))
    rw [hcut.at_eq] at hy
    -- The outer block goes on at the cut, which is where the second half is.
    by_cases hxo : x = outer
    · have htail := (hcut.succ_iff outer tail).2 (.inr (.inr ⟨rfl, rfl⟩))
      rw [hxo, hcut.head_at, Option.some.injEq] at ha
      rw [← ha, Block.staticTargets_bare, ho.head_targets h, List.mem_singleton] at htarget
      rw [if_pos htarget, Option.some.injEq] at hy
      rw [← hy, hxo]
      exact (hm.succ_iff outer tail).2 (.inl ⟨htail, (ho.inner_ne h.linked).symm, hit.symm⟩)
    -- An edge to the inner block goes to the second half now, which has its address.
    · split at hy
      · rename_i heq
        cases hy
        have hin := hcut.complete hw hx hxo hxt ha htarget (heq ▸ ho.inner_at)
        exact (hm.succ_iff x tail).2 (.inr (.inl ⟨hin, hxi, rfl⟩))
      · rename_i hother
        refine (hm.succ_iff x y).2
          (.inl ⟨hcut.complete hw hx hxo hxt ha htarget hy, hxi, fun hyi => hother ?_⟩)
        exact h.linked.blockAt?_inj hy (hyi ▸ ho.inner_at)

/-- The region stays traced, and is still entered. -/
theorem traced (hm : MergedInto r₁ r' inner tail d e) (hcut : Cut r r₁ outer tail addr b i)
    (h : Traced K r) (ho : Overlap r outer inner addr b i) (hc : r₁.bare? inner = some c)
    (hd : r₁.bare? tail = some d.bare) (hcentry : c.entry = addr) (hdentry : d.entry = addr)
    (hentered : ∃ f, f ∈ r.succs entrySlot) : Traced K r' ∧ ∃ f, f ∈ r'.succs entrySlot := by
  have hinner := h.blockAt?_ne_entry ho.inner_at
  have htail := hcut.tail_ne_entry h.toWoven
  have hsuccs : ∀ y, y ∈ r'.succs entrySlot ↔
      y ∈ r.succs entrySlot ∧ y ≠ inner ∨ inner ∈ r.succs entrySlot ∧ y = tail := fun y => by
    rw [hm.succ_iff, hcut.succs_entry h.toWoven ho, hcut.succs_entry h.toWoven ho]
    simp [hinner.symm, htail.symm]
  refine ⟨⟨hm.woven (hcut.woven h.toWoven ho) hc hd (hcentry.trans hdentry.symm) hinner htail,
    fun y hy => ?_⟩, ?_⟩
  · unfold firstBlock?
    rw [hm.at_eq, hcut.at_eq, hm.entryAddr, hcut.entryAddr]
    rcases (hsuccs y).1 hy with ⟨hy, hyi⟩ | ⟨hi, rfl⟩
    · have hfirst : r.blockAt? r.entryAddr = some y := h.first y hy
      rw [if_neg, hfirst]
      intro heq
      rw [heq, ho.inner_at, Option.some.injEq] at hfirst
      exact hyi hfirst.symm
    · exact if_pos (h.linked.blockAt?_inj (h.first inner hi) ho.inner_at)
  · obtain ⟨f, hf⟩ := hentered
    by_cases hfi : f = inner
    · exact ⟨tail, (hsuccs _).2 (.inr ⟨hfi ▸ hf, rfl⟩)⟩
    · exact ⟨f, (hsuccs _).2 (.inl ⟨hf, hfi⟩)⟩

end MergedInto

/-! ## The other block in the place of the second half -/

namespace YieldedTo

/-- Each block that is left was there before. -/
theorem cases (hy : YieldedTo r r' outer inner tail addr) (ha : r'.bare? x = some a) :
    x ≠ tail ∧ r.bare? x = some a := by
  rw [hy.bare_eq] at ha
  split at ha
  · cases ha
  · exact ⟨‹_›, ha⟩

/-- The region stays woven if the outer block goes on where the inner one starts. -/
theorem woven (hy : YieldedTo r r' outer inner tail addr) (h : Woven K r)
    (ha : r.bare? outer = some a) (htargets : a.staticTargets = [addr])
    (hc : r.bare? inner = some c) (hentry : c.entry = addr) (hinner : inner ≠ entrySlot)
    (htail : tail ≠ entrySlot) : Woven K r' where
  linked := hy.linked
  entry := by
    rw [hy.bare_eq, if_neg htail.symm]
    exact h.entry
  no_back x hx := by
    rcases (hy.succ_iff x entrySlot).1 hx with ⟨hx, -⟩ | ⟨-, hx⟩
    · exact h.no_back x hx
    · exact hinner hx.symm
  guest x k hx hk := h.guest x k hx (hy.cases hk).2
  edge x y k g hx hxy hk hg := by
    have hk := (hy.cases hk).2
    have hg := (hy.cases hg).2
    -- The new edge goes where the one block that ends at the cut goes on; nothing else is new.
    rcases (hy.succ_iff x y).1 hxy with ⟨hxy, -⟩ | ⟨rfl, rfl⟩
    · exact h.edge x y k g hx hxy hk hg
    · rw [ha, Option.some.injEq] at hk
      rw [hc, Option.some.injEq] at hg
      rw [← hk, ← hg, htargets, hentry]
      exact List.mem_singleton_self _
  no_phis x k hk := h.no_phis x k (hy.cases hk).2

/-- All blocks are found where they were before the cut. -/
theorem blockAt?_eq (hy : YieldedTo r₁ r' outer inner tail addr)
    (hcut : Cut r r₁ outer tail addr b i) (ho : Overlap r outer inner addr b i) :
    r'.blockAt? target = r.blockAt? target := by
  rw [hy.at_eq, hcut.at_eq]
  split
  · rename_i heq
    rw [heq]
    exact ho.inner_at.symm
  · rfl

/-- The region is wired again once `inner` has taken the place of the second half. -/
theorem wired (hy : YieldedTo r₁ r' outer inner tail addr) (hcut : Cut r r₁ outer tail addr b i)
    (h : Woven K r) (ho : Overlap r outer inner addr b i) (hc : r₁.bare? inner = some c)
    (hentry : c.entry = addr) (hw : Wired r) : Wired r' := by
  refine ⟨fun x a hx ha => ?_, fun x a target y hx ha htarget hat => ?_⟩
  · obtain ⟨hxt, ha⟩ := hy.cases ha
    rw [hy.blockAt?_eq hcut ho]
    by_cases hxi : x = inner
    · rw [hxi, hc, Option.some.injEq] at ha
      rw [← ha, hentry, hxi]
      exact ho.inner_at
    · exact (hcut.indexed ho hw hx hxi hxt ha).2
  · obtain ⟨hxt, ha⟩ := hy.cases ha
    rw [hy.blockAt?_eq hcut ho] at hat
    -- The outer block goes on at the cut, where the inner block is; the others keep their edges.
    by_cases hxo : x = outer
    · rw [hxo, hcut.head_at, Option.some.injEq] at ha
      rw [← ha, Block.staticTargets_bare, ho.head_targets h, List.mem_singleton] at htarget
      rw [htarget] at hat
      obtain rfl := Option.some.inj (ho.inner_at.symm.trans hat)
      exact (hy.succ_iff x inner).2 (.inr ⟨hxo, rfl⟩)
    · refine (hy.succ_iff x y).2
        (.inl ⟨hcut.complete hw hx hxo hxt ha htarget hat, hxt, fun hyt => ?_⟩)
      exact h.linked.blockAt?_ne_of_free hcut.free (hyt ▸ hat)

/-- The region stays traced, and is still entered. -/
theorem traced (hy : YieldedTo r₁ r' outer inner tail addr) (hcut : Cut r r₁ outer tail addr b i)
    (h : Traced K r) (ho : Overlap r outer inner addr b i) (hc : r₁.bare? inner = some c)
    (hentry : c.entry = addr) (hentered : ∃ f, f ∈ r.succs entrySlot) :
    Traced K r' ∧ ∃ f, f ∈ r'.succs entrySlot := by
  have houter := h.blockAt?_ne_entry ho.outer_at
  have htail := hcut.tail_ne_entry h.toWoven
  have hsuccs : ∀ y, y ∈ r'.succs entrySlot ↔ y ∈ r.succs entrySlot := fun y => by
    rw [hy.succ_iff, hcut.succs_entry h.toWoven ho]
    have hne : y ∈ r.succs entrySlot → y ≠ tail := fun hy =>
      (h.linked.ne_of_free hcut.free hy).2
    simpa [houter.symm, htail.symm] using hne
  refine ⟨⟨hy.woven (hcut.woven h.toWoven ho) hcut.head_at (ho.head_targets h.toWoven) hc hentry
    (h.blockAt?_ne_entry ho.inner_at) htail, fun y hxy => ?_⟩, ?_⟩
  · unfold firstBlock?
    rw [hy.blockAt?_eq hcut ho, hy.entryAddr, hcut.entryAddr]
    exact h.first y ((hsuccs y).1 hxy)
  · obtain ⟨f, hf⟩ := hentered
    exact ⟨f, (hsuccs f).2 hf⟩

end YieldedTo

/-! ## Resolving overlaps -/

/-- Resolving an overlap keeps the region traced. -/
theorem Traced.splitOverlap (h : Traced K r) (ho : Overlap r outer inner addr b i)
    (hentered : ∃ f, f ∈ r.succs entrySlot) :
    ∃ r', r.splitOverlap outer inner = .ok r' ∧ Traced K r' ∧ (∃ f, f ∈ r'.succs entrySlot) ∧
      r'.entryAddr = r.entryAddr ∧ (Wired r → Wired r') := by
  obtain ⟨r₁, tail, c, d, -, hcut, hc, hd, -, hdbare, hcentry, r', hok, hcase⟩ :=
    splitOverlap_cases h.linked ho
  have hc := bare?_of_block hc
  have hdentry : d.entry = addr := (congrArg Block.entry hdbare :).trans ho.tail_entry
  rcases hcase with ⟨-, e, hm⟩ | ⟨-, hy⟩
  · obtain ⟨htraced, hentered⟩ := hm.traced hcut h ho hc (bare?_of_block hd) hcentry hdentry hentered
    exact ⟨r', hok, htraced, hentered, hm.entryAddr.trans hcut.entryAddr,
      hm.wired hcut h.toWoven ho hdentry⟩
  · obtain ⟨htraced, hentered⟩ := hy.traced hcut h ho hc hcentry hentered
    exact ⟨r', hok, htraced, hentered, hy.entryAddr.trans hcut.entryAddr,
      hy.wired hcut h.toWoven ho hc hcentry⟩

/-- Resolving all overlaps keeps the region traced. -/
theorem Traced.splitOverlaps (h : Traced K r) (hentered : ∃ f, f ∈ r.succs entrySlot) :
    ∃ r' n, r.splitOverlaps = .ok (r', n) ∧ Traced K r' ∧ (∃ f, f ∈ r'.succs entrySlot) ∧
      r'.entryAddr = r.entryAddr ∧ (Wired r → Wired r') := by
  -- One round takes one overlap away and keeps all of this, whatever the fuel is.
  have hfrom : ∀ (fuel : Nat) (r : Region) (n : Nat), Traced K r → (∃ f, f ∈ r.succs entrySlot) →
      ∃ r' m, splitOverlapsFrom fuel r n = .ok (r', m) ∧ Traced K r' ∧
        (∃ f, f ∈ r'.succs entrySlot) ∧ r'.entryAddr = r.entryAddr ∧ (Wired r → Wired r') := by
    intro fuel
    induction fuel with
    | zero => exact fun r n h hentered => ⟨r, n, rfl, h, hentered, rfl, id⟩
    | succ fuel ih =>
      intro r n h hentered
      unfold splitOverlapsFrom
      cases hfind : r.findOverlap with
      | none => exact ⟨r, n, rfl, h, hentered, rfl, id⟩
      | some p =>
        obtain ⟨addr, b, i, ho⟩ := overlap_of_findOverlap h.linked hfind
        obtain ⟨r₁, hok₁, h₁, hentered₁, hentry₁, hwired₁⟩ := h.splitOverlap ho hentered
        obtain ⟨r', m, hok, h', hentered', hentry, hwired⟩ := ih r₁ (n + 1) h₁ hentered₁
        refine ⟨r', m, ?_, h', hentered', hentry.trans hentry₁, hwired ∘ hwired₁⟩
        change (r.splitOverlap p.1 p.2 >>= fun r => _) = _
        rw [hok₁]
        exact hok
  exact hfrom r.wordCount r 0 h hentered

end HotRegion.Region
