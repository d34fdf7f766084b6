import HotRegion.Proofs.Machine.Units
import HotRegion.Proofs.Region.Passage

/-!
# The effect of blocks

Passing through a block has one outcome, whatever memory is required to be in between, and leaves
alone all units of the guest state but those of the registers that the block defines.

## Key results

- `Block.Passes.unique`: the outcome of passing through a block
- `Block.Passes.unit_eq`: what a block leaves alone
-/

namespace HotRegion.Region

open Isa Machine

variable {safe safe' : Memory → Prop} {g g₁ g₂ g' : State} {code : List (UInt32 × UInt32)} {b : Block}
  {counting : Bool} {out out₁ out₂ : Departure} {u : Tracked}

/-! ## Outcomes -/

/-- Straight code has one outcome. -/
theorem Straight.unique (h₁ : Straight safe code g g₁) (h₂ : Straight safe' code g g₂) : g₁ = g₂ := by
  induction code generalizing g with
  | nil => exact Eq.trans h₁ (Eq.symm h₂)
  | cons p code ih =>
    obtain ⟨x, hx, -, h₁⟩ := h₁
    obtain ⟨y, hy, -, h₂⟩ := h₂
    rw [hx] at hy
    cases hy
    exact ih h₁ h₂

namespace Block

/-- Passing through a block has one outcome. -/
theorem Passes.unique (h₁ : b.Passes counting safe g g₁ out₁) (h₂ : b.Passes counting safe' g g₂ out₂) :
    g₁ = g₂ ∧ out₁ = out₂ := by
  -- The transfer of the block says which of the three ways it is left.
  cases h₁ with
  | through htr run goes =>
    cases h₂ with
    | through _ run' goes' =>
      obtain rfl := run.unique run'
      obtain rfl := Option.some.inj (goes.symm.trans goes')
      exact ⟨rfl, rfl⟩
    | likely htr' => cases htr.symm.trans htr'
    | transfer htr' => cases htr.symm.trans htr'
  | likely htr hlikely run =>
    cases h₂ with
    | through htr' => cases htr.symm.trans htr'
    | likely htr' _ run' =>
      obtain rfl := Option.some.inj (htr.symm.trans htr')
      obtain rfl := run.unique run'
      exact ⟨rfl, rfl⟩
    | transfer htr' hnot =>
      obtain rfl := Option.some.inj (htr.symm.trans htr')
      rw [hlikely] at hnot
      cases hnot
  | transfer htr hnot run delay =>
    cases h₂ with
    | through htr' => cases htr.symm.trans htr'
    | likely htr' hlikely =>
      obtain rfl := Option.some.inj (htr.symm.trans htr')
      rw [hlikely] at hnot
      cases hnot
    | transfer htr' _ run' delay' =>
      obtain rfl := Option.some.inj (htr.symm.trans htr')
      obtain rfl := run.unique run'
      obtain rfl := delay.unique delay'
      exact ⟨rfl, rfl⟩

end Block

/-! ## Frames -/

/-- Straight code leaves alone what its instructions do not touch. -/
theorem Straight.unit_eq (h : Straight safe code g g')
    (hu : ∀ p ∈ code, Untouched (decode p.1) u) : g'.unit u = g.unit u := by
  induction code generalizing g with
  | nil => rw [show g' = g from h]
  | cons p code ih =>
    obtain ⟨g₁, hok, -, hrest⟩ := h
    rw [ih hrest fun q hq => hu q (List.mem_cons_of_mem _ hq),
      unit_execute hok (hu p List.mem_cons_self)]

/-- A link changes only the register it is written to. -/
theorem unit_link (g : State) (addr : UInt32) {insn : Instr} (hu : Untouched insn u) :
    (g.link addr insn).unit u = g.unit u := by
  have hset : ∀ (r : Gpr) (v : UInt32), insn.defs = [.gpr r] → (g.setReg r v).unit u = g.unit u := by
    intro r v hdefs
    rw [State.unit_setReg]
    refine if_neg fun ⟨hgpr, hzero⟩ => ?_
    refine hu (.gpr r) (List.mem_filter.2 ⟨by simp [hdefs], ?_⟩) (by simp [Tracked.units, hzero, hgpr])
    rw [bne_iff_ne]
    rintro heq
    cases heq
    cases hzero
  cases insn with
  | branchZeroLink | jumpLink | jumpLinkReg => exact hset _ _ rfl
  | _ => rfl

/-- The counters are no other unit of the guest. -/
theorem unit_clock (g : State) (pc : UInt32) (hu : u ≠ .icnt) (icnt : UInt64) :
    (g.clock pc icnt).unit u = g.unit u := by
  cases u with
  | icnt => exact absurd rfl hu
  | hiLo h => cases h <;> rfl
  | _ => rfl

namespace Block

/-- The count changes only in blocks that have instructions to count. -/
theorem unit_counted (hcount : u = .icnt → counting = true → b.instructionCount = 0) (g : State) :
    (b.counted counting g).unit u = g.unit u := by
  by_cases hu : u = .icnt
  · subst hu
    change (if counting then g.icnt + UInt64.ofNat b.instructionCount else g.icnt) = g.icnt
    split
    · next hc =>
      rw [hcount rfl hc]
      exact UInt64.add_zero _
    · rfl
  · exact unit_clock g _ hu _

/-- A block changes only the units of the registers it defines. -/
theorem Passes.unit_eq (hp : b.Passes counting safe g g' out)
    (hu : ∀ insn ∈ b.body, Untouched insn u)
    (hcount : u = .icnt → counting = true → b.instructionCount = 0) : g'.unit u = g.unit u := by
  have hstart := unit_counted hcount g
  have hpc : ∀ (x : State) (pc : UInt32), (x.clock pc x.icnt).unit u = x.unit u := fun x pc => by
    cases u with
    | hiLo h => cases h <;> rfl
    | _ => rfl
  -- What runs of a block is its body, and the transfer adds its link alone.
  cases hp with
  | through htr run goes =>
    rw [hpc, run.unit_eq fun p hp => hu _ (body_of_none htr ▸ mem_instrs hp), hstart]
  | @likely g₁ tr htr _ run =>
    rw [hpc, run.unit_eq fun p hp => hu _ (mem_body_of_take htr
      ((List.take_subset_take_left _ (Nat.le_succ _)) hp)), hstart]
  | @transfer g₁ g₂ tr htr hlikely run delay =>
    obtain ⟨w, d, hcode, hdrop, hlen, hinsn, -, -⟩ := code_of_transfer htr
    have hall : ∀ p ∈ b.code, Untouched (decode p.1) u := fun p hp =>
      hu _ (body_of_unlikely htr hlikely ▸ mem_instrs hp)
    have hself : Untouched tr.insn u := by
      rw [hinsn]
      exact hall (w, tr.addr) (by rw [hcode]; simp)
    rw [hpc, delay.unit_eq fun p hp => hall p (List.mem_of_mem_drop hp), unit_link _ _ hself,
      run.unit_eq fun p hp => hall p (List.mem_of_mem_take hp), hstart]

end Block

end HotRegion.Region
