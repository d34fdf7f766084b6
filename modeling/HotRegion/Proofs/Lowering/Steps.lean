import HotRegion.Proofs.Lowering.Crossing

/-!
# Crossing the region in single steps

The way of the guest through the region is a run of single steps of the machine, as long as memory
holds the code of the region. Between a likely branch and its delay slot the machine has not taken the
step of the branch yet: `Standing` says where it is when the guest enters a block.

## Key results

- `reaches_of_departs`: a guest that leaves the region has taken single steps of the machine
-/

namespace HotRegion.Lowering

open Isa
open Machine (State Memory Reaches)
open Region (Slot Departure Transfer)

variable {c : Scope} {K : UInt32 × UInt32 → Prop} {n : Nat} {x y : Slot} {g g' s h₁ : State}
  {out : Departure} {safe : Memory → Prop} {b : Region.Block} {icnt : UInt64}

/-- The machine is at `s` when the guest enters block `x` at `g`. -/
inductive Standing (c : Scope) (K : UInt32 × UInt32 → Prop) (x : Slot) (g : State) : State → Prop where
  | guest {b : Region.Block} (block : c.region.block? x = some b) (code : b.Guest K)
      (pc : g.pc = b.entry) : Standing c K x g g
  | patch {a b : Region.Block} {tr tr' : Transfer} {taken notTaken w : UInt32} {s : State}
      (block : c.region.block? x = some b) (code : a.Guest K)
      (patchOf : a.PatchOf b tr taken notTaken w) (pending : a.Pending tr' s g) : Standing c K x g s

theorem Standing.mem_eq (h : Standing c K x g s) : s.mem = g.mem := by
  cases h with
  | guest => rfl
  | patch _ _ _ pending =>
    rw [pending.next]
    rfl

namespace Scope.Sound

variable (hc : c.Sound K n) (hsafe : ∀ mem, safe mem → ∀ p, K p → mem.readWord p.2 = p.1)

include hsafe in
/-- Passing through a block takes single steps, up to the likely branch if its delay slot is still to
run. -/
theorem reaches_of_passes (hst : Standing c K x (g.clock g.pc icnt) s) (hg : safe g.mem)
    (hb : c.region.block? x = some b)
    (hpass : b.Passes c.config.countInstructions safe g g' out) :
    let g'' := g'.clock g'.pc (icnt + UInt64.ofNat b.instructionCount)
    (out.pending = false → ∃ k, 0 < k ∧ Reaches k s g'') ∧
      (out.pending = true → b.Guest K ∧ ∃ k h tr, Reaches k s h ∧ b.Pending tr h g'') := by
  have hfetch : ∀ {a : Region.Block}, a.Guest K → ∀ mem, safe mem → a.In mem := fun ha mem hmem p hp =>
    hsafe mem hmem p (ha.code p hp)
  have hcounted := hpass.recount icnt
  have hmem := hst.mem_eq
  cases hst with
  | guest block code pc =>
    obtain rfl := Option.some.inj (hb.symm.trans block)
    obtain ⟨hdone, hpend⟩ := hcounted.reaches code.shaped code.not_patch (hfetch code) pc hg
    refine ⟨hdone, fun h => ⟨code, ?_⟩⟩
    obtain ⟨k, h, tr, hreach, -, hp⟩ := hpend h
    exact ⟨k, h, tr, hreach, hp⟩
  | patch block code patchOf pending =>
    obtain rfl := Option.some.inj (hb.symm.trans block)
    obtain ⟨hnot, hreach⟩ := hcounted.reaches_patch code.shaped patchOf (hfetch code) pending
      (hmem ▸ hg)
    exact ⟨fun _ => ⟨1, Nat.one_pos, hreach⟩, fun h => by rw [hnot] at h; cases h⟩

include hc

/-- Where the guest goes on at a block of the region, the machine stands at it. -/
theorem standing_next (hx : x ≠ Region.entrySlot) (hb : c.region.block? x = some b)
    (hnext : c.next b g' out = some y) (icnt : UInt64) :
    y ≠ Region.entrySlot ∧
      (out.pending = false → Standing c K y (g'.clock g'.pc icnt) (g'.clock g'.pc icnt)) ∧
      (out.pending = true → b.Guest K → ∀ h tr, b.Pending tr h (g'.clock g'.pc icnt) →
        Standing c K y (g'.clock g'.pc icnt) h) := by
  unfold Scope.next at hnext
  cases hpend : out.pending with
  | false =>
    rw [hpend, if_neg (by simp)] at hnext
    obtain ⟨hy, b', hb', hcond⟩ := Scope.succ?_spec hnext
    obtain ⟨-, hne, -⟩ := hc.live_succ hb hy
    refine ⟨hne, fun _ => ?_, by simp⟩
    simp only [Bool.and_eq_true, Bool.not_eq_true', beq_iff_eq] at hcond
    rcases hc.ready.block y b' hne hb' with hguest | ⟨_, _, _, _, _, _, hpatch⟩
    · exact .guest hb' hguest hcond.2.symm
    · simp [Region.Block.isPatch, hpatch.target] at hcond
  | true =>
    rw [hpend, if_pos rfl] at hnext
    obtain ⟨hy, b', hb', hcond⟩ := Scope.succ?_spec hnext
    obtain ⟨-, hne, hedge⟩ := hc.live_succ hb hy
    refine ⟨hne, by simp, fun _ hguest h tr hp => ?_⟩
    rcases hc.ready.edge x y b b' hx hedge hb hb' with ⟨hnone, -⟩ | ⟨-, _, _, _, _, hpatch⟩
    · simp [Region.Block.isPatch, hnone] at hcond
    · exact .patch hb' hguest hpatch hp

/-- A guest does not leave the region before the delay slot of a likely branch that is taken. -/
theorem pending_of_next_eq_none (hx : x ≠ Region.entrySlot) (hb : c.region.block? x = some b)
    (hpass : b.Passes c.config.countInstructions safe g g' out) (hguest : b.Guest K)
    (hnext : c.next b g' out = none) : out.pending = false := by
  cases hpend : out.pending with
  | false => rfl
  | true =>
    obtain ⟨tr, htr, hlikely⟩ : ∃ tr, b.transfer = some tr ∧ tr.insn.isLikelyBranch = true := by
      cases hpass with
      | through => cases hpend
      | likely htr hlikely => exact ⟨_, htr, hlikely⟩
      | transfer => cases hpend
    obtain ⟨p, b', _, _, _, _, hp, hb', hpatch⟩ := hc.ready.patched x b hx hb hguest.not_patch
      ((Region.Block.endsInLikely_eq htr).trans hlikely)
    rw [Region.succs_of_block hb] at hp
    rw [Scope.next, hpend, if_pos rfl] at hnext
    have hnot := List.find?_eq_none.1 hnext p hp
    simp [hb', Region.Block.isPatch, hpatch.target] at hnot

include hsafe

/-- A guest that leaves the region has taken single steps of the machine. The count of instructions is
kept, if they are counted, and is made up for otherwise. -/
theorem reaches_of_departs (hcomes : Comes c safe x g y h₁) (hx : x ≠ Region.entrySlot)
    (hg : safe g.mem) (hst : Standing c K x (g.clock g.pc icnt) s)
    (hb : c.region.block? y = some b) (hdeparts : Departs c safe b h₁ g' out) :
    ∃ k icnt', 0 < k ∧ Reaches k s (g'.clock g'.pc icnt') ∧
      (c.config.countInstructions = true → icnt = g.icnt → icnt' = g'.icnt) := by
  -- Induction on the way through the blocks. Each block is steps of the interpreter, the last too.
  induction hcomes generalizing s icnt with
  | @here x g =>
    obtain ⟨hpass, hnext⟩ := hdeparts
    obtain ⟨hdone, hpend⟩ := reaches_of_passes hsafe hst hg hb hpass
    -- Behind a pending delay slot there is a patch block, so the region is not left here.
    have hnot : out.pending = false := by
      cases hp : out.pending with
      | false => rfl
      | true =>
        have := hc.pending_of_next_eq_none hx hb hpass (hpend hp).1 hnext
        rw [hp] at this
        cases this
    obtain ⟨k, hk, hreach⟩ := hdone hnot
    refine ⟨k, _, hk, hreach, fun hcount hicnt => ?_⟩
    rw [hpass.icnt_eq, hcount, if_pos rfl, hicnt]
  | @hop x y z b₁ g g₁ h₁ out₁ block pass next _ ih =>
    obtain ⟨hdone, hpend⟩ := reaches_of_passes hsafe hst hg block pass
    obtain ⟨hne, hplain, hpatch⟩ := hc.standing_next hx block next
      (icnt + UInt64.ofNat b₁.instructionCount)
    have hmem := pass.safe_end hg
    have hcount : c.config.countInstructions = true → icnt = g.icnt →
        icnt + UInt64.ofNat b₁.instructionCount = g₁.icnt := fun hcount hicnt => by
      rw [pass.icnt_eq, hcount, if_pos rfl, hicnt]
    obtain ⟨j, s₁, hreach₁, hst₁⟩ : ∃ j s₁, Reaches j s s₁ ∧
        Standing c K y (g₁.clock g₁.pc (icnt + UInt64.ofNat b₁.instructionCount)) s₁ := by
      cases hp : out₁.pending with
      | false =>
        obtain ⟨j, -, hreach⟩ := hdone hp
        exact ⟨j, _, hreach, hplain hp⟩
      | true =>
        obtain ⟨hguest, j, h, tr, hreach, hpending⟩ := hpend hp
        exact ⟨j, h, hreach, hpatch hp hguest h tr hpending⟩
    obtain ⟨k, icnt', hk, hreach, hsame⟩ := ih hne hmem hst₁ hb hdeparts
    exact ⟨j + k, icnt', by omega, hreach₁.trans hreach, fun h₁ h₂ => hsame h₁ (hcount h₁ h₂)⟩

end Scope.Sound

end HotRegion.Lowering
