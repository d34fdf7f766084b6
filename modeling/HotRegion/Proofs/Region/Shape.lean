import HotRegion.Proofs.Region.Links
import HotRegion.Region.Split

/-!
# Shapes of blocks

The words of a block lie one after the other, and only the second to last may transfer control.
This is how traces come out of the machine, and cutting a block in two keeps it: the first half has
no transfer and goes on at the second, which goes on where the whole block did.

## Key results

- `Block.transfer_eq_some`: what the transfer of a block is made of
- `Block.shaped_head` / `Block.shaped_tail`: both halves of a block are shaped
- `Block.staticTargets_head` / `Block.staticTargets_tail`: where the halves go on
-/

namespace HotRegion.Machine

/-- A word lies four times its position past the entry. -/
theorem wordAddr_sub_div (entry : UInt32) {i : Nat} (hi : i < 0x40000000) :
    ((wordAddr entry i - entry) / 4).toNat = i := by
  have hsub : wordAddr entry i - entry = 4 * UInt32.ofNat i := by
    unfold wordAddr
    rw [UInt32.add_comm, UInt32.add_sub_cancel]
  rw [hsub, UInt32.toNat_div, UInt32.toNat_mul, UInt32.toNat_ofNat']
  change 4 * (i % 2 ^ 32) % 2 ^ 32 / 4 = i
  omega

/-- Addresses come back after the whole address space. -/
theorem wordAddr_wrap (entry : UInt32) {i : Nat} (hi : 0x40000000 ≤ i) :
    wordAddr entry (i - 0x40000000) = wordAddr entry i := by
  obtain ⟨j, rfl⟩ := Nat.exists_eq_add_of_le' hi
  rw [Nat.add_sub_cancel, wordAddr_add]
  simp [wordAddr]

end HotRegion.Machine

namespace HotRegion.Region

open Isa
open Machine (wordAddr wordAddr_add wordAddr_succ wordAddr_zero wordAddr_sub_div wordAddr_wrap)

variable {b : Block} {tr : Transfer} {i : Nat} {w addr : UInt32} {p : UInt32 × UInt32}

namespace Block

/-- Only the second to last word may transfer control. -/
structure Shaped (b : Block) : Prop where
  ne_nil : b.words ≠ []
  position : ∀ i w, b.words[i]? = some w → (decode w).hasDelaySlot = true →
    i + 2 = b.words.length

/-- A shaped block has an instruction. -/
theorem Shaped.length_pos (h : b.Shaped) : 0 < b.words.length := List.length_pos_iff.2 h.ne_nil

/-! ## Code -/

/-- The words of a block with their addresses. -/
theorem mem_code : p ∈ b.code ↔ ∃ i w, b.words[i]? = some w ∧ p = (w, wordAddr b.entry i) := by
  unfold code
  simp only [List.mem_map, Prod.exists, List.mem_zipIdx_iff_getElem?]
  constructor
  · rintro ⟨w, i, hi, rfl⟩
    exact ⟨i, w, hi, rfl⟩
  · rintro ⟨i, w, hi, rfl⟩
    exact ⟨w, i, hi, rfl⟩

/-- Every word of a block is kept decoded. -/
theorem decode_mem_instrs {w : UInt32} (h : w ∈ b.words) : decode w ∈ b.instrs := by
  rw [b.decoded]
  exact List.mem_map_of_mem h

/-- The instructions of a block are those of its code. -/
theorem mem_instrs (h : p ∈ b.code) : decode p.1 ∈ b.instrs := by
  obtain ⟨i, w, hw, rfl⟩ := mem_code.1 h
  exact decode_mem_instrs (List.mem_of_getElem? hw)

/-- The code of a block has one entry for each word. -/
theorem length_code (b : Block) : b.code.length = b.words.length := by
  simp [code]

/-- The code of a block pairs its words with their addresses. -/
theorem getElem?_code (b : Block) (i : Nat) :
    b.code[i]? = (b.words[i]?).map fun w => (w, wordAddr b.entry i) := by
  simp [code, Function.comp_def]

/-! ## Transfers -/

/-- The transfer of a block is its second to last instruction. -/
theorem transfer_eq_some (h : b.transfer = some tr) :
    ∃ w, b.words[tr.index]? = some w ∧ tr.index + 2 = b.words.length ∧
      tr.addr = wordAddr b.entry tr.index ∧ tr.insn = decode w ∧
      tr.control = tr.insn.control tr.addr ∧ tr.insn.hasDelaySlot = true := by
  unfold transfer at h
  split at h
  · cases h
  · rename_i w hw
    split at h
    · cases h
    · rename_i hlen
      simp only at h
      split at h
      · rename_i htransfer
        cases h
        unfold length at hw hlen
        refine ⟨w, hw, ?_, rfl, rfl, rfl, ?_⟩
        · change b.words.length - 2 + 2 = b.words.length
          omega
        · rw [← Instr.isTransfer_control]
          exact htransfer
      · cases h

/-- A block without a transfer is short or has another instruction there. -/
theorem transfer_eq_none_iff :
    b.transfer = none ↔ ∀ i w, i + 2 = b.words.length → b.words[i]? = some w →
      (decode w).hasDelaySlot = false := by
  constructor
  · intro h i w hlen hw
    have hi : b.words.length - 2 = i := by omega
    unfold transfer at h
    simp only [length, hi, hw] at h
    rw [if_neg (by omega)] at h
    rw [← Instr.isTransfer_control _ (wordAddr b.entry i)]
    split at h
    · cases h
    · rename_i hnot
      simpa using hnot
  · intro h
    cases htr : b.transfer with
    | none => rfl
    | some tr =>
      obtain ⟨w, hw, hlen, _, hinsn, _, hdelay⟩ := transfer_eq_some htr
      rw [hinsn, h tr.index w hlen hw] at hdelay
      cases hdelay

/-- The transfer of a block, from its second to last word. -/
theorem transfer_of_getElem? (hlen : i + 2 = b.words.length) (hw : b.words[i]? = some w)
    (hdelay : (decode w).hasDelaySlot = true) :
    b.transfer = some ⟨i, wordAddr b.entry i, decode w,
      (decode w).control (wordAddr b.entry i)⟩ := by
  have hi : b.words.length - 2 = i := by omega
  unfold transfer
  simp only [length, hi, hw]
  rw [if_neg (by omega), if_pos (by rw [Instr.isTransfer_control]; exact hdelay)]

/-- A likely branch at the end of a block. -/
theorem endsInLikely_iff :
    b.endsInLikely = true ↔ ∃ tr taken notTaken, b.transfer = some tr ∧
      tr.control = .branch taken notTaken true := by
  unfold endsInLikely
  cases b.transfer with
  | none => simp
  | some tr =>
    simp only [Transfer.isLikely]
    split
    · rename_i taken notTaken likely heq
      simp [heq]
    · rename_i hne
      simp only [Bool.false_eq_true, Option.some.injEq, false_iff, not_exists, not_and]
      rintro tr' taken notTaken rfl h
      exact hne _ _ _ h

/-! ## Where blocks go on -/

/-- A block that falls through goes on behind its last word. -/
theorem staticTargets_of_none (h : b.transfer = none) (hp : b.patchTarget = none) :
    b.staticTargets = [b.exitAddr + 4] := by
  simp [staticTargets, h, fallthrough, endsInTransfer, hp]

/-- The address behind a block. -/
theorem exitAddr_add (h : b.words ≠ []) : b.exitAddr + 4 = wordAddr b.entry b.words.length := by
  have hpos := List.length_pos_iff.2 h
  unfold exitAddr length
  rw [← wordAddr_succ, Nat.sub_add_cancel hpos]

/-! ## Positions -/

/-- The position of an address is the first one that has it. -/
theorem position?_eq_some (h : b.position? addr = some i) :
    i < b.words.length ∧ wordAddr b.entry i = addr ∧ i < 0x40000000 := by
  unfold position? at h
  obtain ⟨hlt, haddr, hfirst⟩ := List.findIdx?_eq_some_iff_getElem.1 h
  have hword : ∀ j (hj : j < b.code.length), b.code[j].2 = wordAddr b.entry j := by
    intro j hj
    simp [code]
  rw [length_code] at hlt
  have hi := hword i (by rw [length_code]; exact hlt)
  simp only [beq_iff_eq] at haddr
  rw [hi] at haddr
  refine ⟨hlt, haddr, ?_⟩
  refine Nat.lt_of_not_le fun hge => ?_
  have hj : i - 0x40000000 < b.code.length := by
    rw [length_code]
    omega
  have hnot := hfirst (i - 0x40000000) (by omega)
  simp only [hword _ hj, wordAddr_wrap b.entry hge, haddr, beq_self_eq_true, not_true] at hnot

/-- An address past the entry is not the one of the first word. -/
theorem position?_pos (h : b.position? addr = some i) (hlt : b.entry < addr) : 0 < i := by
  obtain ⟨-, haddr, -⟩ := position?_eq_some h
  apply Nat.pos_of_ne_zero
  rintro rfl
  rw [wordAddr_zero] at haddr
  exact UInt32.lt_irrefl _ (haddr ▸ hlt)

/-- A delay slot follows a transfer. -/
theorem isDelaySlot_iff (h : b.position? addr = some i) :
    b.isDelaySlot addr = true ↔
      0 < i ∧ ∃ w, b.words[i - 1]? = some w ∧ (decode w).hasDelaySlot = true := by
  obtain ⟨hlen, haddr, hlt⟩ := position?_eq_some h
  unfold isDelaySlot
  rw [← haddr, wordAddr_sub_div _ hlt]
  cases hw : b.words[i - 1]? with
  | none => simp [hw]
  | some w => simp [hw]

/-- An address that is not a delay slot does not follow a transfer. -/
theorem not_hasDelaySlot_of_not_isDelaySlot (h : b.position? addr = some i)
    (hslot : b.isDelaySlot addr = false) (hi : 0 < i) {w : UInt32}
    (hw : b.words[i - 1]? = some w) : (decode w).hasDelaySlot = false := by
  rw [← Bool.not_eq_true, isDelaySlot_iff h] at hslot
  exact Bool.eq_false_iff.2 fun hdelay => hslot ⟨hi, w, hw, hdelay⟩

/-! ## Halves of a block -/

variable (hb : b.Shaped) (hi : 0 < i) (hlt : i < b.words.length)
  (hcut : ∀ w, b.words[i - 1]? = some w → (decode w).hasDelaySlot = false)

include hb hi hlt hcut

/-- The first half has no transfer of control at all. -/
private theorem not_hasDelaySlot_head {j : Nat} (hw : (b.words.take i)[j]? = some w) :
    (decode w).hasDelaySlot = false := by
  rw [List.getElem?_take] at hw
  split at hw
  · rename_i hji
    cases hd : (decode w).hasDelaySlot with
    | false => rfl
    | true =>
      have hpos := hb.position j w hw hd
      have hj : j = i - 1 := by omega
      rw [hcut w (hj ▸ hw)] at hd
      cases hd
  · cases hw

/-- The first half of a split block is shaped. -/
theorem shaped_head : (b.splitAt i).1.Shaped where
  ne_nil h := by
    have hlen : (b.words.take i).length = 0 := by
      rw [show b.words.take i = [] from h]
      rfl
    rw [List.length_take] at hlen
    omega
  position j w hw hd := by
    rw [not_hasDelaySlot_head hb hi hlt hcut hw] at hd
    cases hd

/-- The first half of a split block falls through. -/
theorem transfer_head : (b.splitAt i).1.transfer = none :=
  transfer_eq_none_iff.2 fun _ _ _ hw => not_hasDelaySlot_head hb hi hlt hcut hw

/-- The first half goes on at the second. -/
theorem staticTargets_head (hp : b.patchTarget = none) :
    (b.splitAt i).1.staticTargets = [wordAddr b.entry i] := by
  rw [staticTargets_of_none (transfer_head hb hi hlt hcut) hp,
    exitAddr_add (shaped_head hb hi hlt hcut).ne_nil]
  change [wordAddr b.entry (b.words.take i).length] = _
  rw [List.length_take, Nat.min_eq_left (Nat.le_of_lt hlt)]

omit hi hcut in
/-- The second half of a split block is shaped. -/
theorem shaped_tail : (b.splitAt i).2.Shaped where
  ne_nil h := by
    have hlen : (b.words.drop i).length = 0 := by
      rw [show b.words.drop i = [] from h]
      rfl
    rw [List.length_drop] at hlen
    omega
  position j w hw hd := by
    change (b.words.drop i)[j]? = some w at hw
    change j + 2 = (b.words.drop i).length
    rw [List.getElem?_drop] at hw
    have := hb.position (i + j) w hw hd
    rw [List.length_drop]
    omega

omit hi in
/-- The second half goes on where the whole block did. -/
theorem staticTargets_tail (hp : b.patchTarget = none) :
    (b.splitAt i).2.staticTargets = b.staticTargets := by
  have hlen : (b.splitAt i).2.words.length = b.words.length - i := List.length_drop
  have hwords : ∀ j, (b.splitAt i).2.words[j]? = b.words[i + j]? := fun j => List.getElem?_drop
  cases htr : b.transfer with
  | none =>
    have hnone : (b.splitAt i).2.transfer = none := by
      refine transfer_eq_none_iff.2 fun j w hj hw => ?_
      rw [hwords] at hw
      exact transfer_eq_none_iff.1 htr (i + j) w (by omega) hw
    rw [staticTargets_of_none htr hp, staticTargets_of_none hnone rfl, exitAddr_add hb.ne_nil,
      exitAddr_add (shaped_tail hb hlt).ne_nil, hlen]
    change [wordAddr (wordAddr b.entry i) (b.words.length - i)] = _
    rw [← wordAddr_add, Nat.add_sub_cancel' (Nat.le_of_lt hlt)]
  | some tr =>
    obtain ⟨w, hw, htrlen, haddr, hinsn, hcontrol, hdelay⟩ := transfer_eq_some htr
    -- The cut is not between the transfer and its delay slot.
    have hle : i ≤ tr.index := by
      refine Nat.le_of_not_lt fun hgt => ?_
      have hind : i - 1 = tr.index := by omega
      rw [hinsn, hcut w (hind ▸ hw)] at hdelay
      cases hdelay
    have hw' : (b.splitAt i).2.words[tr.index - i]? = some w := by
      rw [hwords, Nat.add_sub_cancel' hle]
      exact hw
    have htr' := transfer_of_getElem? (b := (b.splitAt i).2) (by omega) hw' (hinsn ▸ hdelay)
    have haddr' : wordAddr (b.splitAt i).2.entry (tr.index - i) = tr.addr := by
      change wordAddr (wordAddr b.entry i) (tr.index - i) = tr.addr
      rw [← wordAddr_add, Nat.add_sub_cancel' hle, haddr]
    rw [haddr', ← hinsn, ← hcontrol] at htr'
    simp only [staticTargets, htr, htr']
    rfl

omit hb hi hlt hcut

/-- The code of the first half is code of the block. -/
theorem mem_code_of_mem_head (h : p ∈ (b.splitAt i).1.code) : p ∈ b.code := by
  obtain ⟨j, w, hw, rfl⟩ := mem_code.1 h
  refine mem_code.2 ⟨j, w, ?_, rfl⟩
  change (b.words.take i)[j]? = some w at hw
  rw [List.getElem?_take] at hw
  split at hw
  · exact hw
  · cases hw

/-- The code of the second half is code of the block. -/
theorem mem_code_of_mem_tail (h : p ∈ (b.splitAt i).2.code) : p ∈ b.code := by
  obtain ⟨j, w, hw, rfl⟩ := mem_code.1 h
  change (b.words.drop i)[j]? = some w at hw
  rw [List.getElem?_drop] at hw
  refine mem_code.2 ⟨i + j, w, hw, ?_⟩
  rw [wordAddr_add]
  rfl

end Block

end HotRegion.Region
