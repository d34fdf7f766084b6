import HotRegion.Isa.Encode
import HotRegion.Proofs.Isa.Decoding

/-!
# Encoding and decoding are inverse

The fields that `encode` writes into a word are the fields that `decode` reads from it. An
instruction that the format can tell from all others therefore comes back, and every word decodes
to such an instruction, up to the shift that is written like `nop`.

## Key results

- `decode_encode`: a well-formed instruction is decoded from its word
- `wellFormed_decode`: words decode to well-formed instructions
- `encode_decode_inverse`: both directions, and encoding after decoding is idempotent
-/

namespace HotRegion.Isa

/-- A register is decoded from its number. -/
@[simp] theorem Gpr.ofNat_num (r : Gpr) : Gpr.ofNat r.num.val = r := by
  cases r
  simp [Gpr.ofNat]

/-- A floating-point register is decoded from its number. -/
@[simp] theorem Fpr.ofNat_num (r : Fpr) : Fpr.ofNat r.num.val = r := by
  cases r
  simp [Fpr.ofNat]

/-- A comparison is decoded from its low bits. -/
@[simp] theorem FpCond.ofNat_bits (c : FpCond) : FpCond.ofNat (0x30 + c.bits.val) = c := by
  obtain ⟨n⟩ := c
  rw [FpCond.ofNat, FpCond.mk.injEq, Fin.ext_iff]
  simp only [Fin.ofNat]
  omega

/-! ## Codes fit their fields -/

/-- The function code of a shift fits its field. -/
@[simp] theorem ShiftOp.funct_lt (op : ShiftOp) : op.funct < 64 := by
  cases op <;> decide

/-- The opcode of an operation on registers fits its field. -/
@[simp] theorem AluOp.code_fst_lt (op : AluOp) : op.code.1 < 64 := by
  cases op with
  | shift op => exact Nat.succ_pos 63
  | _ => decide

/-- The function code of an operation on registers fits its field. -/
@[simp] theorem AluOp.code_snd_lt (op : AluOp) : op.code.2 < 64 := by
  cases op with
  | shift op => cases op <;> decide
  | _ => decide

/-- No operation on registers has the function code of a shift to the left. -/
theorem AluOp.code_snd_pos (op : AluOp) : 0 < op.code.2 := by
  cases op with
  | shift op => exact Nat.succ_pos _
  | _ => decide

/-- The function code of a multiplication or division fits its field. -/
@[simp] theorem MulDivOp.funct_lt (op : MulDivOp) : op.funct < 64 := by
  cases op <;> decide

/-- A multiplication or division is not taken for a shift to the left. -/
@[simp] theorem MulDivOp.funct_ne_zero (op : MulDivOp) : op.funct ≠ 0 := by
  cases op <;> decide

/-- The function code of a trap fits its field. -/
@[simp] theorem TrapCond.funct_lt (cond : TrapCond) : cond.funct < 64 := by
  cases cond <;> decide

/-- A trap is not taken for a shift to the left. -/
@[simp] theorem TrapCond.funct_ne_zero (cond : TrapCond) : cond.funct ≠ 0 := by
  cases cond <;> decide

/-- The function code of floating-point arithmetic fits its field. -/
@[simp] theorem FpAluOp.funct_lt (op : FpAluOp) : op.funct < 64 := by
  cases op <;> decide

/-- The opcode of an operation with an immediate fits its field. -/
@[simp] theorem ImmOp.opcode_lt (op : ImmOp) : op.opcode < 64 := by
  cases op <;> decide

/-- The opcode of a load fits its field. -/
@[simp] theorem LoadOp.opcode_lt (op : LoadOp) : op.opcode < 64 := by
  cases op <;> decide

/-- The opcode of a store fits its field. -/
@[simp] theorem StoreOp.opcode_lt (op : StoreOp) : op.opcode < 64 := by
  cases op <;> decide

namespace Word

/-! ## Six fields -/

section

variable {op s t d a n : Nat}

/-- The word of six fields that fit is their sum, each at its weight. -/
theorem toNat_ofFields (hop : op < 64) (hs : s < 32) (ht : t < 32) (hd : d < 32) (ha : a < 32)
    (hn : n < 64) : (ofFields op s t d a n).toNat =
      op * 0x4000000 + s * 0x200000 + t * 0x10000 + d * 0x800 + a * 64 + n := by
  refine UInt32.toNat_ofNat_of_lt' ?_
  change _ < 4294967296
  omega

variable (hop : op < 64) (hs : s < 32) (ht : t < 32) (hd : d < 32) (ha : a < 32) (hn : n < 64)

include hop hs ht hd ha hn

/-- The opcode is read back. -/
@[simp] theorem opcode_ofFields : opcode (ofFields op s t d a n) = op := by
  rw [opcode, toNat_ofFields hop hs ht hd ha hn]
  omega

/-- The first source register is read back. -/
@[simp] theorem rsField_ofFields : rsField (ofFields op s t d a n) = s := by
  rw [rsField, toNat_ofFields hop hs ht hd ha hn]
  omega

/-- The second source register is read back. -/
@[simp] theorem rtField_ofFields : rtField (ofFields op s t d a n) = t := by
  rw [rtField, toNat_ofFields hop hs ht hd ha hn]
  omega

/-- The target register is read back. -/
@[simp] theorem rdField_ofFields : rdField (ofFields op s t d a n) = d := by
  rw [rdField, toNat_ofFields hop hs ht hd ha hn]
  omega

/-- The shift amount is read back. -/
@[simp] theorem saField_ofFields : saField (ofFields op s t d a n) = a := by
  rw [saField, toNat_ofFields hop hs ht hd ha hn]
  omega

/-- The function code is read back. -/
@[simp] theorem funct_ofFields : funct (ofFields op s t d a n) = n := by
  rw [funct, toNat_ofFields hop hs ht hd ha hn]
  omega

/-- Only a word without a field is zero. -/
@[simp] theorem ofFields_eq_zero : ofFields op s t d a n = 0 ↔
    op = 0 ∧ s = 0 ∧ t = 0 ∧ d = 0 ∧ a = 0 ∧ n = 0 := by
  rw [← UInt32.toNat_inj, toNat_ofFields hop hs ht hd ha hn]
  change _ = 0 ↔ _
  omega

end

/-- The shift amount of a shift is read back as the number it was. -/
theorem amount_ofFields {op s t d n : Nat} (hop : op < 64) (hs : s < 32) (ht : t < 32)
    (hd : d < 32) (hn : n < 64) (m : Fin 32) : amount (ofFields op s t d m.val n) = m := by
  rw [Fin.ext_iff]
  change saField _ % 32 = _
  rw [saField_ofFields hop hs ht hd m.isLt hn, Nat.mod_eq_of_lt m.isLt]

/-- The condition code that a comparison sets is the upper part of the fifth field. -/
theorem code_ofFields {op s t d n : Nat} (hop : op < 64) (hs : s < 32) (ht : t < 32) (hd : d < 32)
    (hn : n < 64) (cc : Fin 8) :
    Fin.ofNat 8 ((ofFields op s t d (cc.val * 4) n).toNat / 0x100) = cc := by
  have ha : cc.val * 4 < 32 := by omega
  rw [toNat_ofFields hop hs ht hd ha hn, Fin.ext_iff]
  change _ % 8 = _
  omega

/-! ## A format and four fields -/

section

variable {fmt : FpFormat} {t s d n : Nat} (ht : t < 32) (hs : s < 32) (hd : d < 32) (hn : n < 64)

include ht hs hd hn

/-- Floating-point instructions have the opcode of the coprocessor. -/
theorem opcode_ofFp : opcode (ofFp fmt t s d n) = 0x11 := by
  cases fmt <;> exact opcode_ofFields (by decide) (by decide) ht hs hd hn

/-- The format of a floating-point instruction is read back. -/
theorem rsField_ofFp : rsField (ofFp fmt t s d n) = match fmt with
    | .single => 0x10
    | .double => 0x11 := by
  cases fmt <;> exact rsField_ofFields (by decide) (by decide) ht hs hd hn

/-- The second operand of a floating-point instruction is read back. -/
@[simp] theorem ft_ofFp : ft (ofFp fmt t s d n) = .ofNat t := by
  cases fmt <;> exact congrArg Fpr.ofNat (rtField_ofFields (by decide) (by decide) ht hs hd hn)

/-- The first operand of a floating-point instruction is read back. -/
@[simp] theorem fs_ofFp : fs (ofFp fmt t s d n) = .ofNat s := by
  cases fmt <;> exact congrArg Fpr.ofNat (rdField_ofFields (by decide) (by decide) ht hs hd hn)

/-- The target of a floating-point instruction is read back. -/
@[simp] theorem fd_ofFp : fd (ofFp fmt t s d n) = .ofNat d := by
  cases fmt <;> exact congrArg Fpr.ofNat (saField_ofFields (by decide) (by decide) ht hs hd hn)

/-- The function code of a floating-point instruction is read back. -/
@[simp] theorem funct_ofFp : funct (ofFp fmt t s d n) = n := by
  cases fmt <;> exact funct_ofFields (by decide) (by decide) ht hs hd hn

end

/-! ## Two fields and an immediate -/

section

variable {op s t : Nat} {value : UInt16}

/-- The word of an instruction with an immediate is the sum of its fields, each at its weight. -/
theorem toNat_ofImmediate (hop : op < 64) (hs : s < 32) (ht : t < 32) :
    (ofImmediate op s t value).toNat =
      op * 0x4000000 + s * 0x200000 + t * 0x10000 + value.toNat := by
  refine UInt32.toNat_ofNat_of_lt' ?_
  have := value.toNat_lt
  change _ < 4294967296
  omega

variable (hop : op < 64) (hs : s < 32) (ht : t < 32)

include hop hs ht

/-- The opcode of an instruction with an immediate is read back. -/
@[simp] theorem opcode_ofImmediate : opcode (ofImmediate op s t value) = op := by
  have := value.toNat_lt
  rw [opcode, toNat_ofImmediate hop hs ht]
  omega

/-- The base or source register is read back. -/
@[simp] theorem rsField_ofImmediate : rsField (ofImmediate op s t value) = s := by
  have := value.toNat_lt
  rw [rsField, toNat_ofImmediate hop hs ht]
  omega

/-- The target register of an instruction with an immediate is read back. -/
@[simp] theorem rtField_ofImmediate : rtField (ofImmediate op s t value) = t := by
  have := value.toNat_lt
  rw [rtField, toNat_ofImmediate hop hs ht]
  omega

/-- The immediate is read back with all its bits. -/
@[simp] theorem imm_ofImmediate : imm (ofImmediate op s t value) = value := by
  have := value.toNat_lt
  rw [← UInt16.toNat_inj, imm, UInt32.toNat_toUInt16, toNat_ofImmediate hop hs ht]
  omega

/-- An instruction with an immediate is not taken for `nop`. -/
theorem ofImmediate_ne_zero (hpos : 0 < op) : ofImmediate op s t value ≠ 0 := by
  rw [Ne, ← UInt32.toNat_inj, toNat_ofImmediate hop hs ht]
  change ¬ _ = 0
  omega

end

/-- The second register field of a branch on a condition code holds the code and two flags. -/
theorem flags_ofImmediate {op s : Nat} (hop : op < 64) (hs : s < 32) (value : UInt16) (cc : Fin 8)
    (likely onTrue : Bool) :
    let w := ofImmediate op s (cc.val * 4 + likely.toNat * 2 + onTrue.toNat) value
    (w.toNat / 0x10000 % 2 == 1) = onTrue ∧ Fin.ofNat 8 (w.toNat / 0x40000) = cc ∧
      (w.toNat / 0x20000 % 2 == 1) = likely := by
  have hlikely := likely.toNat_lt
  have honTrue := onTrue.toNat_lt
  have ht : cc.val * 4 + likely.toNat * 2 + onTrue.toNat < 32 := by omega
  have hvalue := value.toNat_lt
  have hbit : ∀ (b : Bool) (n : Nat), n = b.toNat → (n == 1) = b := by
    rintro (_ | _) _ rfl <;> rfl
  intro w
  have hw : w.toNat = _ := toNat_ofImmediate hop hs ht
  refine ⟨hbit _ _ ?_, ?_, hbit _ _ ?_⟩
  · omega
  · rw [Fin.ext_iff]
    change _ % 8 = _
    omega
  · omega

/-! ## A jump index -/

section

variable {op : Nat} {i : Fin 0x4000000}

/-- The word of a jump is its opcode before its index. -/
theorem toNat_ofIndex (hop : op < 64) :
    (UInt32.ofNat (op * 0x4000000 + i.val)).toNat = op * 0x4000000 + i.val := by
  refine UInt32.toNat_ofNat_of_lt' ?_
  change _ < 4294967296
  omega

/-- The opcode of a jump is read back. -/
theorem opcode_ofIndex (hop : op < 64) : opcode (UInt32.ofNat (op * 0x4000000 + i.val)) = op := by
  rw [opcode, toNat_ofIndex hop]
  omega

/-- The index of a jump is read back. -/
theorem index_ofIndex (hop : op < 64) : index (UInt32.ofNat (op * 0x4000000 + i.val)) = i := by
  rw [index, Fin.ext_iff]
  change _ % _ = _
  rw [toNat_ofIndex hop]
  omega

/-- A jump is not taken for `nop`. -/
theorem ofIndex_ne_zero (hop : op < 64) (hpos : 0 < op) :
    UInt32.ofNat (op * 0x4000000 + i.val) ≠ 0 := by
  rw [Ne, ← UInt32.toNat_inj, toNat_ofIndex hop]
  change ¬ _ = 0
  omega

end

end Word

namespace Instr

open Word

variable {i : Instr} {w : UInt32}

-- From here on simp reads the tables of the coder.
attribute [local simp] encode FpUnaryOp.encode decode decodeSpecial decodeRegImm decodeFpu
  decodeSpecial2 decodeSpecial3 decodeFp decodeFpWord

/-- The format tells the instruction from all others. The types already bound shift amounts,
condition codes and jump indices. -/
def WellFormed : Instr → Prop
  | shift .leftLogical rd rt amount => ¬ (rd = .zero ∧ rt = .zero ∧ amount.val = 0)
  | fpUnary (.convert target source) _ _ => target ≠ source
  | unknown word => decode word = unknown word
  | _ => True

/-! ## Families

A word is decoded by its major code, and a word of a family by one more field. Each lemma here
follows one family through the tables of `decode`, so that the round trip below reads fields
only. -/

/-- A word with an opcode is not that of `nop`. -/
theorem ne_zero_of_opcode {n : Nat} (hop : opcode w = n) (hpos : 0 < n) : w ≠ 0 := by
  rintro rfl
  exact absurd hop (Nat.ne_of_lt hpos)

/-- A word with a function code is not that of `nop`. -/
theorem ne_zero_of_funct {n : Nat} (hfunct : funct w = n) (hpos : 0 < n) : w ≠ 0 := by
  rintro rfl
  exact absurd hfunct (Nat.ne_of_lt hpos)

/-- Major code 0 is shared with the zero word, which is `nop`. -/
theorem decode_of_special (hne : w ≠ 0) (hop : opcode w = 0x00) : decode w = decodeSpecial w := by
  rw [decode, if_neg hne, hop]
  rfl

/-- The branches that compare with zero have an opcode in common. -/
theorem decode_of_regImm (hop : opcode w = 0x01) : decode w = decodeRegImm w := by
  rw [decode, if_neg (ne_zero_of_opcode hop (by decide)), hop]
  rfl

/-- The floating-point instructions have an opcode in common. -/
theorem decode_of_fpu (hop : opcode w = 0x11) : decode w = decodeFpu w := by
  rw [decode, if_neg (ne_zero_of_opcode hop (by decide)), hop]
  rfl

/-- The multiplications into a register and the counts of zeros have an opcode in common. -/
theorem decode_of_special2 (hop : opcode w = 0x1c) : decode w = decodeSpecial2 w := by
  rw [decode, if_neg (ne_zero_of_opcode hop (by decide)), hop]
  rfl

/-- The extensions of signs have an opcode in common. -/
theorem decode_of_special3 (hop : opcode w = 0x1f) : decode w = decodeSpecial3 w := by
  rw [decode, if_neg (ne_zero_of_opcode hop (by decide)), hop]
  rfl

/-- An operation with an immediate is told by its opcode. -/
theorem decode_of_imm (op : ImmOp) (hop : opcode w = op.opcode) :
    decode w = imm op (rt w) (rs w) (Word.imm w) := by
  cases op <;> rw [decode, if_neg (ne_zero_of_opcode hop (by decide)), hop] <;> rfl

/-- A load is told by its opcode. -/
theorem decode_of_load (op : LoadOp) (hop : opcode w = op.opcode) :
    decode w = load op (rt w) (rs w) (Word.imm w) := by
  cases op <;> rw [decode, if_neg (ne_zero_of_opcode hop (by decide)), hop] <;> rfl

/-- A store is told by its opcode. -/
theorem decode_of_store (op : StoreOp) (hop : opcode w = op.opcode) :
    decode w = store op (rt w) (rs w) (Word.imm w) := by
  cases op <;> rw [decode, if_neg (ne_zero_of_opcode hop (by decide)), hop] <;> rfl

/-- A shift by a constant is told by its function code. -/
theorem decodeSpecial_of_shift (op : ShiftOp) (hfunct : funct w = op.funct) :
    decodeSpecial w = shift op (rd w) (rt w) (amount w) := by
  cases op <;> rw [decodeSpecial, hfunct] <;> rfl

/-- A multiplication or division is told by its function code. -/
theorem decodeSpecial_of_mulDiv (op : MulDivOp) (hfunct : funct w = op.funct) :
    decodeSpecial w = mulDiv op (rs w) (rt w) := by
  cases op <;> rw [decodeSpecial, hfunct] <;> rfl

/-- A trap is told by its function code. -/
theorem decodeSpecial_of_trap (cond : TrapCond) (hfunct : funct w = cond.funct) :
    decodeSpecial w = trap cond (rs w) (rt w) := by
  cases cond <;> rw [decodeSpecial, hfunct] <;> rfl

/-- The three-register operations have two major codes: `mul` is not in the first family. -/
theorem decode_of_alu (op : AluOp) (hop : opcode w = op.code.1) (hfunct : funct w = op.code.2) :
    decode w = alu op (rd w) (rs w) (rt w) := by
  have hne := ne_zero_of_funct hfunct op.code_snd_pos
  cases op with
  | mul =>
    rw [decode_of_special2 hop, decodeSpecial2, hfunct]
    rfl
  | shift op =>
    rw [decode_of_special hne hop]
    cases op <;> rw [decodeSpecial, hfunct] <;> rfl
  | _ =>
    rw [decode_of_special hne hop, decodeSpecial, hfunct]
    rfl

/-- The format of a computation is the first register field. -/
theorem decode_ofFp {fmt : FpFormat} {t s d n : Nat} (ht : t < 32) (hs : s < 32) (hd : d < 32)
    (hn : n < 64) : decode (ofFp fmt t s d n) = decodeFp fmt (ofFp fmt t s d n) := by
  have hrs : rsField (ofFp fmt t s d n) = _ := rsField_ofFp ht hs hd hn
  rw [decode_of_fpu (opcode_ofFp ht hs hd hn)]
  cases fmt with
  | single => simp only [decodeFpu, hrs]
  | double => simp only [decodeFpu, hrs]

/-- Floating-point arithmetic is told by its function code. -/
theorem decodeFp_of_alu (op : FpAluOp) {fmt : FpFormat} (hfunct : funct w = op.funct) :
    decodeFp fmt w = fpAlu op fmt (fd w) (fs w) (ft w) := by
  cases op <;> rw [decodeFp, hfunct] <;> rfl

/-- The upper quarter of the operations in a format are comparisons. -/
theorem decodeFp_of_le {fmt : FpFormat} (h : 0x30 ≤ funct w) :
    decodeFp fmt w =
      fpCompare (.ofNat (funct w)) fmt (Fin.ofNat 8 (w.toNat / 0x100)) (fs w) (ft w) := by
  unfold decodeFp
  split
  case h_13 => rw [if_pos h]
  all_goals omega

/-! ## Decoding what was encoded -/

/-- A shift is read back unless it is the word of `nop`. -/
theorem decode_shift {op : ShiftOp} {rd rt : Gpr} {amount : Fin 32}
    (h : (shift op rd rt amount).WellFormed) :
    decode (shift op rd rt amount).encode = shift op rd rt amount := by
  have hne : Word.ofFields 0 0 rt.num rd.num amount op.funct ≠ 0 := by
    rw [Ne, ofFields_eq_zero (by decide) (by decide) rt.num.isLt rd.num.isLt amount.isLt
      op.funct_lt]
    rintro ⟨-, -, hrt, hrd, hamount, hop⟩
    cases op with
    | leftLogical =>
      refine h ⟨?_, ?_, hamount⟩
      · exact Gpr.ofNat_num rd ▸ hrd ▸ rfl
      · exact Gpr.ofNat_num rt ▸ hrt ▸ rfl
    | rightLogical => cases hop
    | rightArithmetic => cases hop
  rw [encode, decode_of_special hne (by simp), decodeSpecial_of_shift op (by simp)]
  simp [Word.rd, Word.rt, amount_ofFields]

/-- A branch on a condition bit is read back with its bit, its offset and whether it is likely. -/
theorem decode_branchFp (onTrue : Bool) (cc : Fin 8) (offset : UInt16) (likely : Bool) :
    decode (branchFp onTrue cc offset likely).encode = branchFp onTrue cc offset likely := by
  have hlikely := likely.toNat_lt
  have honTrue := onTrue.toNat_lt
  have ht : cc.val * 4 + likely.toNat * 2 + onTrue.toNat < 32 := by omega
  have hop : 0x11 < 64 := by decide
  have hs : 0x08 < 32 := by decide
  obtain ⟨honTrue, hcc, hlikely⟩ := flags_ofImmediate hop hs offset cc likely onTrue
  rw [encode, decode_of_fpu (opcode_ofImmediate hop hs ht)]
  simp only [decodeFpu, rsField_ofImmediate hop hs ht, imm_ofImmediate hop hs ht, honTrue, hcc,
    hlikely]

/-- A jump is read back with its index. -/
theorem decode_jump (index : Fin 0x4000000) : decode (jump index).encode = jump index := by
  rw [encode, decode, if_neg (ofIndex_ne_zero (by decide) (by decide)), opcode_ofIndex (by decide)]
  exact congrArg jump (index_ofIndex (by decide))

/-- A jump that links is read back with its index. -/
theorem decode_jumpLink (index : Fin 0x4000000) :
    decode (jumpLink index).encode = jumpLink index := by
  rw [encode, decode, if_neg (ofIndex_ne_zero (by decide) (by decide)), opcode_ofIndex (by decide)]
  exact congrArg jumpLink (index_ofIndex (by decide))

/-- An operation on one floating-point register is read back unless it converts a format to itself.
-/
theorem decode_fpUnary {op : FpUnaryOp} {fd fs : Fpr} (h : (fpUnary op fd fs).WellFormed) :
    decode (fpUnary op fd fs).encode = fpUnary op fd fs := by
  cases op with
  | convert target source =>
    cases target <;> cases source
    case single.single | double.double => exact absurd rfl h
    all_goals
      rw [encode, FpUnaryOp.encode, decode_ofFp (by decide) fs.num.isLt fd.num.isLt (by decide)]
      simp
  | fromWord fmt =>
    cases fmt <;> rw [encode, FpUnaryOp.encode, decode_of_fpu (by simp)] <;>
      simp [Word.fd, Word.fs]
  | _ fmt =>
    rw [encode, FpUnaryOp.encode, decode_ofFp (by decide) fs.num.isLt fd.num.isLt (by decide)]
    simp

/-- A comparison is read back with its condition, its format and its bit. -/
theorem decode_fpCompare (cond : FpCond) (fmt : FpFormat) (cc : Fin 8) (fs ft : Fpr) :
    decode (fpCompare cond fmt cc fs ft).encode = fpCompare cond fmt cc fs ft := by
  have ha : cc.val * 4 < 32 := by omega
  have hn : 0x30 + cond.bits.val < 64 := by omega
  rw [encode, decode_ofFp ft.num.isLt fs.num.isLt ha hn, decodeFp_of_le (by simp [ha, hn])]
  simp [ha, hn]
  cases fmt <;> exact code_ofFields (by decide) (by decide) ft.num.isLt fs.num.isLt hn cc

/-- A well-formed instruction is decoded from its word. -/
theorem decode_encode (h : i.WellFormed) : decode i.encode = i := by
  cases i with
  | nop => rfl
  | shift op rd rt amount => exact decode_shift h
  | alu op rd rs rt =>
    rw [encode, decode_of_alu op (by simp) (by simp)]
    simp [Word.rd, Word.rs, Word.rt]
  | mulDiv op rs rt =>
    rw [encode, decode_of_special (by simp) (by simp), decodeSpecial_of_mulDiv op (by simp)]
    simp [Word.rs, Word.rt]
  | hiLoMove op r =>
    cases op <;> rw [encode, decode_of_special (by simp) (by simp)] <;>
      simp [Word.rs, Word.rd]
  | unary op rd src =>
    cases op with
    | countLeadingZeros =>
      rw [encode, decode_of_special2 (by simp)]
      simp [Word.rs, Word.rd]
    | signExtendByte | signExtendHalf =>
      rw [encode, decode_of_special3 (by simp)]
      simp [Word.rt, Word.rd]
  | imm op rt rs value =>
    rw [encode, decode_of_imm op (by simp)]
    simp [Word.rs, Word.rt]
  | loadUpper rt value => simp [ofImmediate_ne_zero, Word.rt]
  | load op rt base offset =>
    rw [encode, decode_of_load op (by simp)]
    simp [Word.rs, Word.rt]
  | store op rt base offset =>
    rw [encode, decode_of_store op (by simp)]
    simp [Word.rs, Word.rt]
  | branch cond rs rt offset likely =>
    cases cond <;> cases likely <;> simp [ofImmediate_ne_zero, Word.rs, Word.rt]
  | branchZero cond rs offset likely =>
    cases cond with
    -- the two comparisons with a major code of their own
    | le | gt => cases likely <;> simp [ofImmediate_ne_zero, Word.rs]
    | lt | ge =>
      cases likely <;> rw [encode, decode_of_regImm (by simp)] <;> simp [Word.rs]
  | branchZeroLink cond rs offset =>
    cases cond <;> rw [encode, decode_of_regImm (by simp)] <;> simp [Word.rs]
  | branchFp onTrue cc offset likely => exact decode_branchFp onTrue cc offset likely
  | jump index => exact decode_jump index
  | jumpLink index => exact decode_jumpLink index
  | jumpReg rs =>
    rw [encode, decode_of_special (by simp) (by simp)]
    simp [Word.rs]
  | jumpLinkReg rd rs =>
    rw [encode, decode_of_special (by simp) (by simp)]
    simp [Word.rs, Word.rd]
  | fpAlu op fmt fd fs ft =>
    rw [encode, decode_ofFp ft.num.isLt fs.num.isLt fd.num.isLt op.funct_lt,
      decodeFp_of_alu op (by simp)]
    simp
  | fpUnary op fd fs => exact decode_fpUnary h
  | fpCompare cond fmt cc fs ft => exact decode_fpCompare cond fmt cc fs ft
  | fpLoad fmt ft base offset =>
    cases fmt <;> simp [ofImmediate_ne_zero, Word.rs, Word.ft]
  | fpStore fmt ft base offset =>
    cases fmt <;> simp [ofImmediate_ne_zero, Word.rs, Word.ft]
  | moveFromFpu rt fs | moveToFpu rt fs =>
    rw [encode, decode_of_fpu (by simp)]
    simp [Word.rt, Word.fs]
  | moveFromFcr rt c | moveToFcr rt c =>
    rw [encode, decode_of_fpu (by simp)]
    simp [Word.rt, Fcr.ofNumber?_number]
  | trap cond rs rt =>
    rw [encode, decode_of_special (by simp) (by simp), decodeSpecial_of_trap cond (by simp)]
    simp [Word.rs, Word.rt]
  | syscall => rfl
  | breakpoint => rfl
  | sync => rfl
  | unknown word => exact h

/-! ## Encoding what was decoded -/

/-- Words decode to well-formed instructions, up to the shift that is written like `nop`. -/
theorem wellFormed_decode (h : decode w ≠ shift .leftLogical .zero .zero 0) :
    (decode w).WellFormed := by
  have hreads := reads_decode w
  cases hd : decode w with
  | shift op rd rt amount =>
    cases op with
    | leftLogical =>
      rintro ⟨rfl, rfl, hamount⟩
      obtain rfl : amount = 0 := Fin.ext hamount
      exact h hd
    | rightLogical => trivial
    | rightArithmetic => trivial
  | fpUnary op fd fs =>
    rw [hd] at hreads
    cases op <;> trivial
  | unknown word =>
    rw [hd] at hreads
    obtain rfl : word = w := hreads
    exact hd
  | _ => trivial

/-- The word of a decoded instruction decodes to the same word again. -/
theorem encode_decode_encode (w : UInt32) :
    (decode (decode w).encode).encode = (decode w).encode := by
  by_cases h : decode w = shift .leftLogical .zero .zero 0
  · rw [h]
    rfl
  · rw [decode_encode (wellFormed_decode h)]

/-- Encoding and decoding are inverse: well-formed instructions come back from their words, words
decode to well-formed instructions or to the shift that is written like `nop`, and encoding what
was decoded changes a word only once. -/
theorem encode_decode_inverse :
    (∀ i : Instr, i.WellFormed → decode i.encode = i) ∧
    (shift .leftLogical .zero .zero 0).encode = nop.encode ∧ nop.encode = 0 ∧
    ∀ w : UInt32,
      ((decode w).WellFormed ∨ decode w = shift .leftLogical .zero .zero 0) ∧
      (decode (decode w).encode).encode = (decode w).encode ∧
      (decode w ≠ shift .leftLogical .zero .zero 0 → decode (decode w).encode = decode w) := by
  refine ⟨fun i => decode_encode, rfl, rfl, fun w => ⟨?_, encode_decode_encode w, fun h => ?_⟩⟩
  · by_cases h : decode w = shift .leftLogical .zero .zero 0
    · exact .inr h
    · exact .inl (wellFormed_decode h)
  · exact decode_encode (wellFormed_decode h)

/-- A conversion comes back from its word. -/
theorem encode_decode_inverse_convert :
    decode (fpUnary (.convert .double .single) (.ofNat 2) (.ofNat 7)).encode =
      fpUnary (.convert .double .single) (.ofNat 2) (.ofNat 7) :=
  encode_decode_inverse.1 _ FpFormat.noConfusion

end Instr

end HotRegion.Isa
