import HotRegion.Proofs.Lowering.Crossing

/-!
# Reasons for exits

Where control leaves the region out of a guest block, the reason of the exit says what happened at
the end of that block, and no successor of it starts where the guest goes on. A likely branch that is
taken is left out of its patch block.

## Key results

- `Scope.Sound.justified`: the reason for leaving a guest block is the right one
- `Scope.Sound.leaves_of_departs`: every way out of the region is out of a guest block
-/

namespace HotRegion.Lowering

open Isa Analysis Ssa Build
open Machine (State Memory)
open Region (Slot Departure Transfer Straight)

variable {c : Scope} {K : UInt32 × UInt32 → Prop} {n : Nat} {x y first : Slot} {b : Region.Block}
  {tr : Transfer} {g g' g₁ h : State} {out : Departure} {safe : Memory → Prop} {e : Ending}
  {reason : ExitReason} {V : Value → UInt64}

/-- The guest that enters the block at `h` comes to the transfer that ends it at `g`. -/
structure Meets (counting : Bool) (b : Region.Block) (h : State) (tr : Transfer) (g : State) :
    Prop where
  transfer : b.transfer = some tr
  run : Straight (fun _ => True) (b.code.take tr.index) (b.counted counting h) g

namespace Scope

/-- No successor of the block is a guest block that starts at the address. -/
def Unlinked (c : Scope) (b : Region.Block) (addr : UInt32) : Prop :=
  ∀ y ∈ b.succs, ∀ b', c.region.block? y = some b' → b'.isGuest = true → b'.entry ≠ addr

/-- What a reason says of a run that leaves the region out of the guest block `b` in slot `x`. The
guest enters the block at `h` and is at `g` in the end. -/
def Justified (c : Scope) (x : Slot) (b : Region.Block) (h g : State) : ExitReason → Prop
  | .indirectMiss => ∃ tr g₁ rs rd, Meets c.config.countInstructions b h tr g₁ ∧
    jumpOperands tr.insn = some (rs, rd) ∧ g.pc = g₁.reg rs
  | .likelyUntaken => ∃ tr g₁, Meets c.config.countInstructions b h tr g₁ ∧
    tr.insn.isLikelyBranch = true ∧ g₁.taken tr.insn = false ∧
    -- The delay slot does not run.
    g = g₁.clock (tr.addr + 8) g₁.icnt
  | .fallthrough => b.transfer = none ∧ g.pc = b.exitAddr + 4 ∨
    ∃ tr g₁ taken notTaken, Meets c.config.countInstructions b h tr g₁ ∧
      tr.control = .branch taken notTaken false ∧ g₁.taken tr.insn = false ∧ g.pc = tr.addr + 8
  | .branchTarget => ∃ tr g₁, Meets c.config.countInstructions b h tr g₁ ∧
    ((∃ notTaken likely, tr.control = .branch g.pc notTaken likely ∧ g₁.taken tr.insn = true) ∨
      tr.control = .jump g.pc ∨
      ∃ rs rd, jumpOperands tr.insn = some (rs, rd) ∧ c.config.foldConstants = true ∧
        c.Knows x (.before tr.index) rs g.pc ∧ g.pc = g₁.reg rs)

/-- The guest enters the guest block `b` in slot `x` at `h` and leaves the region out of it, or out of
its patch block if it takes a likely branch. -/
structure Leaves (c : Scope) (x : Slot) (b : Region.Block) (h g : State) (reason : ExitReason) :
    Prop where
  block : c.region.block? x = some b
  guest : b.isGuest = true
  justified : c.Justified x b h g reason
  unlinked : (∃ out, b.Passes c.config.countInstructions (fun _ => True) h g out ∧
      c.Unlinked b g.pc) ∨
    ∃ y b' tr taken notTaken w g₁ out, y ∈ b.succs ∧ c.region.block? y = some b' ∧
      b.PatchOf b' tr taken notTaken w ∧
      b.Passes c.config.countInstructions (fun _ => True) h g₁ ⟨true, true⟩ ∧
      b'.Passes c.config.countInstructions (fun _ => True) g₁ g out ∧ c.Unlinked b' g.pc

theorem unlinked_of_succAt? {addr : UInt32} (hnone : c.succAt? b addr = none) : c.Unlinked b addr := by
  intro y hy b' hb' hguest heq
  have hnot := List.find?_eq_none.1 hnone y hy
  have hpatch : b'.isPatch = false := by
    simp only [Region.Block.isGuest, Bool.and_eq_true, Bool.not_eq_true'] at hguest
    exact hguest.1
  simp [hb', hpatch, heq] at hnot

end Scope

/-- How a branch leaves its block. -/
theorem Leaves.of_branch {taken notTaken : UInt32} {likely : Bool}
    (hleaves : b.Leaves safe tr g₁ g out) (hcan : tr.insn.canCompile = true)
    (hctl : tr.insn.control tr.addr = .branch taken notTaken likely) :
    tr.insn.isLikelyBranch = likely ∧ notTaken = tr.addr + 8 ∧ out.taken = g₁.taken tr.insn ∧
      (likely = true → g₁.taken tr.insn = false → g = g₁.clock (tr.addr + 8) g₁.icnt) := by
  obtain ⟨hlikely, hnot, -⟩ := branch_facts hctl hcan
  refine ⟨hlikely, hnot, ?_⟩
  cases hleaves with
  | likely =>
    refine ⟨rfl, fun _ htaken => ?_⟩
    rw [htaken, if_neg (by simp)]
  | transfer isLikely =>
    refine ⟨rfl, fun h => ?_⟩
    rw [← hlikely, isLikely] at h
    cases h

/-- A register jump leaves its block for the address in its register. -/
theorem Leaves.of_jumpReg (hleaves : b.Leaves safe tr g₁ g out)
    (hctl : tr.insn.control tr.addr = .jumpReg) :
    ∃ rs rd, Scope.jumpOperands tr.insn = some (rs, rd) ∧ g.pc = g₁.reg rs := by
  obtain ⟨hlikely, rs, rd, hops, -, hfacts⟩ := jumpReg_facts hctl
  refine ⟨rs, rd, hops, ?_⟩
  cases hleaves with
  | likely isLikely =>
    rw [hlikely] at isLikely
    cases isLikely
  | transfer =>
    obtain ⟨htarget, htaken⟩ := hfacts g₁
    rw [← htarget, htaken, if_pos rfl]
    rfl

/-- A patch block is left for the target of its branch. -/
theorem Scope.Final.of_patch {a : Region.Block} {taken notTaken w : UInt32}
    (hfinal : c.Final x b e reason) (hhold : e.Holds V g out)
    (hpatch : a.PatchOf b tr taken notTaken w) : g.pc = taken ∧ reason = .branchTarget := by
  have hnone := hpatch.transfer_eq_none
  cases hfinal with
  | here of =>
    rcases of with ⟨-, heq⟩ | ⟨tr, htr, -⟩
    · rw [Scope.onward, Region.Block.isPatch, hpatch.target, Ending.goto.injEq] at heq
      exact ⟨hhold.1.trans heq.1, heq.2⟩
    · cases hnone.symm.trans htr
  | taken of =>
    obtain ⟨tr, htr, -⟩ := of
    cases hnone.symm.trans htr
  | untaken of =>
    obtain ⟨tr, htr, -⟩ := of
    cases hnone.symm.trans htr
  | missed of =>
    obtain ⟨-, tr, htr, -⟩ := of
    cases hnone.symm.trans htr

namespace Scope.Sound

variable (hc : c.Sound K n)

include hc

/-- The reason for leaving the region out of a guest block is the right one. -/
theorem justified (hx : x ≠ Region.entrySlot) (hb : c.region.block? x = some b)
    (hguest : b.isPatch = false)
    (hpass : b.Passes c.config.countInstructions (fun _ => True) h g out)
    (hfinal : c.Final x b e reason) (hhold : e.Holds V g out) : c.Justified x b h g reason := by
  -- The guest has run up to the transfer, if there is one, and has left through it.
  have hends : ∀ tr, b.transfer = some tr → tr.insn.canCompile = true ∧
      tr.control = tr.insn.control tr.addr ∧ ∃ g₁, Meets c.config.countInstructions b h tr g₁ ∧
        b.Leaves (fun _ => True) tr g₁ g out := by
    intro tr htr
    obtain ⟨w, hw, -, -, hinsn, hcontrol, -⟩ := Region.Block.transfer_eq_some htr
    obtain ⟨g₁, hrun, hleaves⟩ := hpass.leaves htr
    exact ⟨hinsn ▸ hc.can x b hx hb w (List.mem_of_getElem? hw), hcontrol, g₁, ⟨htr, hrun⟩, hleaves⟩
  cases hfinal with
  | here of none =>
    obtain ⟨rfl, rfl⟩ := hhold
    rcases of with ⟨hnone, heq⟩ | ⟨tr, htr, rfl, hctl⟩
    · rw [Scope.onward, hguest, if_neg (by simp), Ending.goto.injEq] at heq
      rw [heq.2]
      refine .inl ⟨hnone, heq.1.trans ?_⟩
      have hpatch : b.patchTarget = .none := by simpa [Region.Block.isPatch] using hguest
      rw [hpatch]
      rfl
    · obtain ⟨-, hcontrol, g₁, hmeets, hleaves⟩ := hends tr htr
      refine ⟨tr, g₁, hmeets, .inr ?_⟩
      rcases hctl with hctl | ⟨hctl, hfold, rs, rd, hops, hknows⟩
      · exact .inl hctl
      · obtain ⟨rs', rd', hops', hpc⟩ := Leaves.of_jumpReg hleaves (hcontrol.symm.trans hctl)
        obtain ⟨rfl, rfl⟩ := Prod.mk.inj (Option.some.inj (hops.symm.trans hops'))
        exact .inr ⟨rs, rd, hops, hfold, hknows, hpc⟩
  | taken of none =>
    obtain ⟨tr, htr, hctl⟩ := of
    obtain ⟨hpc, rfl⟩ := hhold
    obtain ⟨hcan, hcontrol, g₁, hmeets, hleaves⟩ := hends tr htr
    obtain ⟨-, -, htaken, -⟩ := Leaves.of_branch hleaves hcan (hcontrol.symm.trans hctl)
    exact ⟨tr, g₁, hmeets, .inl ⟨_, _, hpc ▸ hctl, htaken.symm⟩⟩
  | @untaken _ _ _ likely _ of none why =>
    obtain ⟨tr, htr, hctl⟩ := of
    obtain ⟨hpc, rfl⟩ := hhold
    obtain ⟨hcan, hcontrol, g₁, hmeets, hleaves⟩ := hends tr htr
    obtain ⟨hlikely, hnot, htaken, hskip⟩ :=
      Leaves.of_branch hleaves hcan (hcontrol.symm.trans hctl)
    cases likely with
    | true =>
      subst why
      exact ⟨tr, g₁, hmeets, hlikely, htaken.symm, hskip rfl htaken.symm⟩
    | false =>
      subst why
      exact .inr ⟨tr, g₁, _, _, hmeets, hctl, htaken.symm, hpc.trans hnot⟩
  | missed of all =>
    obtain ⟨-, tr, htr, hctl⟩ := of
    obtain ⟨-, hcontrol, g₁, hmeets, hleaves⟩ := hends tr htr
    obtain ⟨rs, rd, hops, hpc⟩ := Leaves.of_jumpReg hleaves (hcontrol.symm.trans hctl)
    exact ⟨tr, g₁, rs, rd, hmeets, hops, hpc⟩

/-- Every way out of the region is out of a guest block. -/
theorem leaves_of_departs (hfirst : c.region.firstBlock? = some first)
    (hcomes : Comes c (fun _ => True) first g₁ y h) (hb : c.region.block? y = some b)
    (hdeparts : Departs c (fun _ => True) b h g out)
    (hfinal : c.Final y b e reason) (hhold : e.Holds V g out) :
    ∃ x a h₁, Comes c (fun _ => True) first g₁ x h₁ ∧ c.Leaves x a h₁ g reason := by
  obtain ⟨first', fb, hfirst', hsuccs, hfb, hfguest, -⟩ := hc.ready.first
  obtain rfl := Option.some.inj (hfirst.symm.trans hfirst')
  have hne : first ≠ Region.entrySlot := hc.ready.rooted.ne_entry ((hsuccs first).2 rfl)
  have hy := hcomes.ne_entry hc hne
  obtain ⟨hout, hnext⟩ := hfinal.next_eq hhold
  have hunlinked : c.Unlinked b g.pc := by
    rw [hout, Scope.next, if_neg (by simp)] at hnext
    exact Scope.unlinked_of_succAt? hnext
  -- A guest block gives the reason itself.
  rcases hc.ready.block y b hy hb with hguest | ⟨_, _, _, _, _, -, hpatch⟩
  · have hnot : b.isPatch = false := by simp [Region.Block.isPatch, hguest.not_patch]
    exact ⟨y, b, h, hcomes, hb, hguest.isGuest,
      hc.justified hy hb hnot hdeparts.pass hfinal hhold, .inl ⟨out, hdeparts.pass, hunlinked⟩⟩
  · -- The patch block is left behind its branch, which is on the way to it.
    rcases hcomes.last with ⟨rfl, -⟩ | ⟨x, a, h₁, out₁, hbefore, ha, hpass, hgoes⟩
    · obtain rfl := Option.some.inj (hfb.symm.trans hb)
      cases hfguest.not_patch.symm.trans hpatch.target
    · have hx := hbefore.ne_entry hc hne
      have hsucc := Scope.mem_of_next hgoes
      obtain ⟨-, -, hedge⟩ := hc.live_succ ha hsucc
      rcases hc.ready.edge x y a b hx hedge ha hb with
        ⟨hnone, -⟩ | ⟨haguest, tr, taken, notTaken, w, hof⟩
      · rw [hpatch.target] at hnone
        cases hnone
      · have hpending : out₁.pending = true := by
          cases hp : out₁.pending with
          | true => rfl
          | false =>
            rw [Scope.next, hp, if_neg (by simp)] at hgoes
            obtain ⟨-, b', hb', hcond⟩ := Scope.succ?_spec hgoes
            obtain rfl := Option.some.inj (hb.symm.trans hb')
            simp [Region.Block.isPatch, hpatch.target] at hcond
        obtain ⟨hpc, rfl⟩ := hfinal.of_patch hhold hof
        obtain ⟨g₂, hrun, hleaves⟩ := hpass.leaves hof.transfer
        cases hleaves with
        | transfer => cases hpending
        | likely =>
          have htaken : g₂.taken tr.insn = true := hpending
          have hboth : (⟨g₂.taken tr.insn, g₂.taken tr.insn⟩ : Departure) = ⟨true, true⟩ := by
            rw [htaken]
          rw [hboth] at hpass
          exact ⟨x, a, h₁, hbefore, ha, haguest.isGuest,
            ⟨tr, g₂, ⟨hof.transfer, hrun⟩, .inl ⟨notTaken, true, hpc ▸ hof.control, htaken⟩⟩,
            .inr ⟨y, b, tr, taken, notTaken, w, _, out, hsucc, hb, hof, hpass, hdeparts.pass,
              hunlinked⟩⟩

end Scope.Sound

end HotRegion.Lowering
