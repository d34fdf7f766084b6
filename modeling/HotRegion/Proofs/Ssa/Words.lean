import HotRegion.Isa.Arithmetic
import HotRegion.Machine.Execute
import HotRegion.Proofs.Ieee.Rounding
import HotRegion.Proofs.Machine.Bytes
import HotRegion.Ssa.Eval

/-!
# Guest words as values

A guest word is carried as a value of 64 bits with zeros above it. On such values, and on those that
carry a double, every operation of region code computes what the guest operation does.

## Key results

- `eval_add`, `eval_ashr`, `eval_sdiv` and so on: the integer operations
- `eval_fptosi`, `toWord_froundEven`: conversions of floats to words
- `fccr_or`, `fccr_and`: setting and testing a condition code
- `write_and_widthMask`: a store needs the low bits of its value alone
-/

namespace HotRegion.Ssa

open Isa
open Machine (Memory State Width)

variable (a b : UInt32) (x y : UInt64)

/-! ## Masks -/

/-- Masking to 32 bits drops the high word. -/
theorem and_mask32 {ty : Ty} (h : ty.width = 32) : x &&& ty.mask = x.toUInt32.toUInt64 := by
  have hmask : ty.mask = 0xffffffff := by
    rw [Ty.mask, h]
    rfl
  apply UInt64.toNat_inj.1
  rw [hmask, UInt64.toNat_and, UInt32.toNat_toUInt64, UInt64.toNat_toUInt32]
  exact Nat.and_two_pow_sub_one_eq_mod _ 32

/-- Masking to 64 bits drops nothing. -/
theorem and_mask64 {ty : Ty} (h : ty.width = 64) : x &&& ty.mask = x := by
  have hmask : ty.mask = 0xffffffffffffffff := by
    rw [Ty.mask, h]
    rfl
  apply UInt64.toNat_inj.1
  rw [hmask, UInt64.toNat_and]
  exact (Nat.and_two_pow_sub_one_eq_mod _ 64).trans (Nat.mod_eq_of_lt x.toNat_lt)

theorem and_i32 : x &&& Ty.i32.mask = x.toUInt32.toUInt64 := and_mask32 x rfl

theorem and_f32 : x &&& Ty.f32.mask = x.toUInt32.toUInt64 := and_mask32 x rfl

theorem and_i64 : x &&& Ty.i64.mask = x := and_mask64 x rfl

theorem and_f64 : x &&& Ty.f64.mask = x := and_mask64 x rfl

/-- Words are equal if they are as values of 64 bits. -/
theorem toUInt64_inj {a b : UInt32} : a.toUInt64 = b.toUInt64 ↔ a = b := by
  rw [← UInt64.toNat_inj, ← UInt32.toNat_inj, UInt32.toNat_toUInt64, UInt32.toNat_toUInt64]

/-- The evaluator takes shift amounts modulo 32. -/
theorem and_1f (n : Nat) : n &&& 31 = n % 32 := Nat.and_two_pow_sub_one_eq_mod _ 5

/-! ## Sign extension -/

/-- Shifting up and back down copies the sign of the low `w` bits. -/
theorem shift_signExtend {n : Nat} (v : BitVec n) (w : Nat) (h : 0 < w) (hw : w ≤ n) :
    (v <<< (n - w)).sshiftRight (n - w) = (v.setWidth w).signExtend n := by
  apply BitVec.eq_of_getElem_eq
  intro i hi
  rw [BitVec.getElem_sshiftRight, BitVec.getElem_signExtend]
  by_cases hiw : i < w
  · have h1 : n - w + i < n := by omega
    simp [h1, hiw, BitVec.getLsbD_eq_getElem hi]
  · have h1 : ¬ (n - w + i < n) := by omega
    have h2 : n - 1 - (n - w) = w - 1 := by omega
    have h3 : ¬ (n - 1 < n - w) := by omega
    have h4 : w - 1 < w := by omega
    have h5 : w - 1 < n := by omega
    have h6 : n - 1 < n := by omega
    simp [h1, hiw, BitVec.msb_eq_getLsbD_last, h2, h3, h4, h6, BitVec.getLsbD_eq_getElem h5]

/-- The low word of an extension of fewer than 32 bits. -/
theorem setWidth_signExtend (v : BitVec 64) (w : Nat) (hw : w ≤ 32) :
    ((v.setWidth w).signExtend 64).setWidth 32 = ((v.setWidth 32).setWidth w).signExtend 32 := by
  rw [BitVec.setWidth_setWidth_of_le v hw]
  apply BitVec.eq_of_getElem_eq
  intro i hi
  have h : i < 64 := by omega
  rw [BitVec.getElem_setWidth, BitVec.getLsbD_signExtend, BitVec.getElem_signExtend]
  by_cases hiw : i < w <;> simp [h, hiw]

/-- A word is extended to a signed number as the guest reads it. -/
theorem signExtend_word : signExtend a.toUInt64 32 = a.toInt32.toInt64 := by
  apply Int64.toBitVec_inj.1
  refine (shift_signExtend a.toUInt64.toBitVec 32 (by decide) (by decide)).trans ?_
  simp

/-- The low word of a signed number is what the number narrows to. -/
theorem toUInt32_toUInt64 (v : Int64) : v.toUInt64.toUInt32 = v.toInt32.toUInt32 := by
  apply UInt32.toBitVec_inj.1
  exact (BitVec.signExtend_eq_setWidth_of_le v.toBitVec (by decide)).symm

/-- The sign of a byte spreads as the guest's instruction has it. -/
theorem signExtend_byte :
    (signExtend x 8).toUInt64.toUInt32 = UnaryOp.signExtendByte.eval x.toUInt32 := by
  apply UInt32.toBitVec_inj.1
  have hlow := BitVec.signExtend_eq_setWidth_of_le (x.toBitVec.setWidth 32) (v := 8) (by decide)
  have hext := shift_signExtend x.toBitVec 8 (by decide) (by decide)
  refine (congrArg (BitVec.setWidth 32) hext).trans ?_
  rw [setWidth_signExtend _ _ (by decide), ← hlow]
  rfl

/-- The sign of a halfword spreads as the guest's instruction has it. -/
theorem signExtend_half :
    (signExtend x 16).toUInt64.toUInt32 = UnaryOp.signExtendHalf.eval x.toUInt32 := by
  apply UInt32.toBitVec_inj.1
  have hlow := BitVec.signExtend_eq_setWidth_of_le (x.toBitVec.setWidth 32) (v := 16) (by decide)
  have hext := shift_signExtend x.toBitVec 16 (by decide) (by decide)
  refine (congrArg (BitVec.setWidth 32) hext).trans ?_
  rw [setWidth_signExtend _ _ (by decide), ← hlow]
  rfl

/-! ## Integer operations -/

/-- Words are added modulo `2 ^ 32`, as in a register. -/
theorem eval_add : BinOp.add.eval .i32 a.toUInt64 b.toUInt64 = (a + b).toUInt64 := by
  simp only [BinOp.eval, and_i32]
  simp

/-- Words are subtracted modulo `2 ^ 32`. -/
theorem eval_sub : BinOp.sub.eval .i32 a.toUInt64 b.toUInt64 = (a - b).toUInt64 := by
  simp only [BinOp.eval, and_i32]
  simp

/-- Words are multiplied modulo `2 ^ 32`. -/
theorem eval_mul : BinOp.mul.eval .i32 a.toUInt64 b.toUInt64 = (a * b).toUInt64 := by
  simp only [BinOp.eval, and_i32]
  simp

/-- The bits of words are joined one by one, with no bit above the word. -/
theorem eval_and : BinOp.and.eval .i32 a.toUInt64 b.toUInt64 = (a &&& b).toUInt64 := by
  simp only [BinOp.eval, and_i32]
  simp

theorem eval_or : BinOp.or.eval .i32 a.toUInt64 b.toUInt64 = (a ||| b).toUInt64 := by
  simp only [BinOp.eval, and_i32]
  simp

theorem eval_xor : BinOp.xor.eval .i32 a.toUInt64 b.toUInt64 = (a ^^^ b).toUInt64 := by
  simp only [BinOp.eval, and_i32]
  simp

/-- The complement of a word has no bit above the word. -/
theorem eval_not : UnOp.not.eval .i32 a.toUInt64 = (~~~a).toUInt64 := by
  simp only [UnOp.eval, and_i32]
  simp

/-- A shift to the left is the guest's. -/
theorem eval_shl :
    BinOp.shl.eval .i32 a.toUInt64 b.toUInt64 = (ShiftOp.leftLogical.eval a b).toUInt64 := by
  simp only [BinOp.eval, and_i32, Ty.width, ShiftOp.eval]
  apply UInt64.toNat_inj.1
  have hamount : b.toNat % 32 % 64 = b.toNat % 32 := by omega
  simp [shiftAmount, and_1f, hamount]

/-- A logical shift to the right is the guest's. -/
theorem eval_lshr :
    BinOp.lshr.eval .i32 a.toUInt64 b.toUInt64 = (ShiftOp.rightLogical.eval a b).toUInt64 := by
  simp only [BinOp.eval, and_i32, Ty.width, ShiftOp.eval]
  apply UInt64.toNat_inj.1
  have hamount : b.toNat % 32 % 64 = b.toNat % 32 := by omega
  have hlt : a.toNat >>> (b.toNat % 32) < 4294967296 :=
    Nat.lt_of_le_of_lt (Nat.shiftRight_le _ _) a.toNat_lt
  simp [shiftAmount, and_1f, hamount, Nat.mod_eq_of_lt hlt]

/-- The sign bits that a wide shift brings in are those of the narrow one. -/
theorem sshiftRight_signExtend (v : BitVec 32) (n : Nat) :
    ((v.signExtend 64).sshiftRight n).setWidth 32 = v.sshiftRight n := by
  apply BitVec.eq_of_getElem_eq
  intro i hi
  have h64 : ¬ 64 ≤ i := by omega
  rw [BitVec.getElem_setWidth, BitVec.getElem_sshiftRight, BitVec.getLsbD_sshiftRight,
    BitVec.getLsbD_signExtend, BitVec.msb_signExtend]
  by_cases h : n + i < 32
  · have h1 : n + i < 64 := by omega
    simp [h, h1, h64]
  · simp +contextual [h, h64]

/-- Small amounts are the same for the wide shift. -/
theorem shiftAmount64 : ∀ k : Fin 32, ((BitVec.ofNat 64 k).smod 64).toNat = k := by decide

/-- Small amounts are the same for the narrow shift. -/
theorem shiftAmount32 : ∀ k : Fin 32, ((BitVec.ofNat 32 k).smod 32).toNat = k := by decide

/-- An arithmetic shift to the right is the guest's. -/
theorem eval_ashr :
    BinOp.ashr.eval .i32 a.toUInt64 b.toUInt64 = (ShiftOp.rightArithmetic.eval a b).toUInt64 := by
  simp only [BinOp.eval, and_i32, Ty.width, signExtend_word, ShiftOp.eval]
  rw [toUInt64_inj]
  apply UInt32.toBitVec_inj.1
  let k : Fin 32 := Fin.ofNat 32 b.toNat
  have h64 : (b.toUInt64 % UInt64.ofNat 32).toBitVec = BitVec.ofNat 64 k := by
    apply BitVec.eq_of_toNat_eq
    simp [k]
    omega
  have h32 : (b &&& 0x1f).toBitVec = BitVec.ofNat 32 k := by
    apply BitVec.eq_of_toNat_eq
    have hmod := and_1f b.toNat
    simp [k] at hmod ⊢
    omega
  change BitVec.setWidth 32 ((a.toBitVec.signExtend 64).sshiftRight'
    ((b.toUInt64 % UInt64.ofNat 32).toBitVec.smod 64)) =
    a.toBitVec.sshiftRight' ((b &&& 0x1f).toBitVec.smod 32)
  rw [h64, h32, BitVec.sshiftRight_eq', BitVec.sshiftRight_eq', shiftAmount32, shiftAmount64]
  exact sshiftRight_signExtend _ _

/-- A divisor other than zero stays so when it is extended. -/
theorem toInt64_ne_zero {b : UInt32} (h : b ≠ 0) : b.toInt32.toInt64 ≠ 0 := by
  intro h0
  have hint := congrArg Int64.toInt h0
  have hzero : b.toInt32 = 0 := Int32.toInt_inj.1 (by simpa using hint)
  exact h (UInt32.toBitVec_inj.1 (Int32.toBitVec_inj.2 hzero))

/-- The quotient of extended numbers is that of the words, the overflow of the smallest by `-1`
included. -/
theorem toInt32_div (a b : Int32) : (a.toInt64 / b.toInt64).toInt32 = a / b := by
  apply Int32.toInt_inj.1
  rw [Int64.toInt_toInt32, Int64.toInt_div, Int32.toInt_div]
  simp only [Int32.toInt_toInt64]
  exact Int.bmod_bmod_of_dvd (by decide)

/-- The remainder of extended numbers is that of the words. -/
theorem toInt32_mod (a b : Int32) : (a.toInt64 % b.toInt64).toInt32 = a % b := by
  apply Int32.toInt_inj.1
  rw [Int64.toInt_toInt32, Int64.toInt_mod, Int32.toInt_mod]
  simp only [Int32.toInt_toInt64]
  rw [← Int32.toInt_mod]
  exact Int32.toInt_bmod_size _

/-- An unsigned quotient is what the guest puts into `lo`, division by zero included. -/
theorem eval_udiv : BinOp.udiv.eval .i32 a.toUInt64 b.toUInt64 = (divU a b).1.toUInt64 := by
  simp only [BinOp.eval, and_i32, divU]
  by_cases h : b = 0
  · subst h
    rfl
  · rw [if_neg h, if_neg fun h0 : b.toUInt64 = 0 => h (toUInt64_inj.1 h0)]
    simp [← UInt32.toUInt64_div]

/-- An unsigned remainder is what the guest puts into `hi`. -/
theorem eval_urem : BinOp.urem.eval .i32 a.toUInt64 b.toUInt64 = (divU a b).2.toUInt64 := by
  simp only [BinOp.eval, and_i32, divU]
  by_cases h : b = 0
  · subst h
    simp
  · rw [if_neg h, if_neg fun h0 : b.toUInt64 = 0 => h (toUInt64_inj.1 h0)]
    simp [← UInt32.toUInt64_mod]

/-- A signed quotient is what the guest puts into `lo`, division by zero included. -/
theorem eval_sdiv : BinOp.sdiv.eval .i32 a.toUInt64 b.toUInt64 = (divS a b).1.toUInt64 := by
  simp only [BinOp.eval, and_i32, divS, Ty.width, signExtend_word]
  by_cases h : b = 0
  · subst h
    rfl
  · rw [if_neg h, if_neg (toInt64_ne_zero h), toUInt64_inj, toUInt32_toUInt64, toInt32_div]

/-- A signed remainder is what the guest puts into `hi`. -/
theorem eval_srem : BinOp.srem.eval .i32 a.toUInt64 b.toUInt64 = (divS a b).2.toUInt64 := by
  simp only [BinOp.eval, and_i32, divS, Ty.width, signExtend_word]
  by_cases h : b = 0
  · subst h
    simp
  · rw [if_neg h, if_neg (toInt64_ne_zero h), toUInt64_inj, toUInt32_toUInt64, toInt32_mod]

/-- Leading zeros are counted within the word. -/
theorem eval_clz :
    UnOp.clz.eval .i32 a.toUInt64 = (UnaryOp.countLeadingZeros.eval a).toUInt64 := by
  simp only [UnOp.eval, and_i32, UnaryOp.eval, leadingZeros, Ty.width]
  rw [toUInt64_inj]
  by_cases h : a = 0
  · subst h
    rfl
  · have hnat : a.toNat ≠ 0 := by simpa [← UInt32.toNat_inj] using h
    -- The highest bit is the same in both widths, so the counts differ by the spare bits.
    have hlt : a.toNat.log2 < 32 := (Nat.log2_lt hnat).2 a.toNat_lt
    have h64 : a.toUInt64.log2.toNat = a.toNat.log2 := rfl
    have h32 : a.log2.toNat = a.toNat.log2 := rfl
    have hle64 : a.toUInt64.log2 ≤ 63 := by
      rw [UInt64.le_iff_toNat_le, h64]
      change _ ≤ 63
      omega
    have hle32 : a.log2 ≤ 31 := by
      rw [UInt32.le_iff_toNat_le, h32]
      change _ ≤ 31
      omega
    have hle : spareBits 32 ≤ 63 - a.toUInt64.log2 := by
      rw [UInt64.le_iff_toNat_le, UInt64.toNat_sub_of_le _ _ hle64, h64]
      change 32 ≤ 63 - _
      omega
    rw [if_neg h, if_neg fun h0 : a.toUInt64 = 0 => h (toUInt64_inj.1 h0)]
    apply UInt32.toNat_inj.1
    rw [UInt64.toNat_toUInt32, UInt64.toNat_sub_of_le _ _ hle, UInt64.toNat_sub_of_le _ _ hle64,
      UInt32.toNat_sub_of_le _ _ hle32, h64, h32]
    change (63 - a.toNat.log2 - 32) % 2 ^ 32 = 31 - a.toNat.log2
    omega

/-- Shifting a word up and back down extends its low byte. -/
theorem eval_extendByte :
    ShiftOp.rightArithmetic.eval (ShiftOp.leftLogical.eval a 24) 24 =
      UnaryOp.signExtendByte.eval a := by
  apply UInt32.toBitVec_inj.1
  have hlow := BitVec.signExtend_eq_setWidth_of_le a.toBitVec (v := 8) (by decide)
  refine (shift_signExtend a.toBitVec 8 (by decide) (by decide)).trans ?_
  rw [← hlow]
  rfl

/-- Shifting a word up and back down extends its low half. -/
theorem eval_extendHalf :
    ShiftOp.rightArithmetic.eval (ShiftOp.leftLogical.eval a 16) 16 =
      UnaryOp.signExtendHalf.eval a := by
  apply UInt32.toBitVec_inj.1
  have hlow := BitVec.signExtend_eq_setWidth_of_le a.toBitVec (v := 16) (by decide)
  refine (shift_signExtend a.toBitVec 16 (by decide) (by decide)).trans ?_
  rw [← hlow]
  rfl

/-! ## Conversions between widths -/

/-- A word is sign-extended for a signed product. -/
theorem eval_sext : CastOp.sext.eval .i32 .i64 a.toUInt64 = a.toInt32.toInt64.toUInt64 := by
  simp only [CastOp.eval, and_i64, Ty.width, signExtend_word]

/-- A word is zero-extended as it is stored. -/
theorem eval_zext : CastOp.zext.eval .i32 .i64 a.toUInt64 = a.toUInt64 := by
  simp only [CastOp.eval, and_i64]

/-- A truth value becomes the word that the guest's comparisons give. -/
theorem eval_zext_bool (c : Bool) :
    CastOp.zext.eval .i1 .i32 c.toUInt64 = (wordOfBool c).toUInt64 := by
  cases c <;> rfl

/-- Truncation keeps the low word. -/
theorem eval_trunc : CastOp.trunc.eval .i64 .i32 x = x.toUInt32.toUInt64 := by
  simp only [CastOp.eval, and_i32]

/-- The same bits at another type of 32 bits. -/
theorem eval_bitcast32 {source target : Ty} (h : target.width = 32) :
    CastOp.bitcast.eval source target a.toUInt64 = a.toUInt64 := by
  simp only [CastOp.eval, and_mask32 _ h]
  simp

/-- The same bits at another type of 64 bits. -/
theorem eval_bitcast64 {source target : Ty} (h : target.width = 64) :
    CastOp.bitcast.eval source target x = x := by
  simp only [CastOp.eval, and_mask64 _ h]

/-- Values of 64 bits are added without a mask. -/
theorem eval_add64 : BinOp.add.eval .i64 x y = x + y := by
  simp only [BinOp.eval, and_i64]

/-- Values of 64 bits are multiplied without a mask. -/
theorem eval_mul64 : BinOp.mul.eval .i64 x y = x * y := by
  simp only [BinOp.eval, and_i64]

theorem eval_or64 : BinOp.or.eval .i64 x y = x ||| y := by
  simp only [BinOp.eval, and_i64]

/-- The low word moves to the high one. -/
theorem eval_shl64 : BinOp.shl.eval .i64 x 32 = x <<< 32 := by
  simp only [BinOp.eval, and_i64]
  rfl

/-- The high word moves to the low one. -/
theorem eval_lshr64 : BinOp.lshr.eval .i64 x 32 = x >>> 32 := by
  simp only [BinOp.eval, and_i64]
  rfl

/-! ## Two words as one value -/

/-- Two words next to each other, as a number. -/
theorem toNat_join (hi lo : UInt32) :
    (hi.toUInt64 <<< 32 ||| lo.toUInt64).toNat = hi.toNat * 2 ^ 32 + lo.toNat := by
  have hhi := hi.toNat_lt
  have hshift : (hi.toUInt64 <<< 32).toNat = hi.toNat <<< 32 := by
    rw [UInt64.toNat_shiftLeft]
    change hi.toNat <<< 32 % 2 ^ 64 = _
    rw [Nat.shiftLeft_eq]
    omega
  rw [UInt64.toNat_or, hshift, UInt32.toNat_toUInt64, ← Nat.shiftLeft_add_eq_or_of_lt lo.toNat_lt,
    Nat.shiftLeft_eq]

/-- The low one of two words that were joined. -/
theorem toUInt32_join (hi lo : UInt32) : (hi.toUInt64 <<< 32 ||| lo.toUInt64).toUInt32 = lo := by
  apply UInt32.toNat_inj.1
  have hlo := lo.toNat_lt
  rw [UInt64.toNat_toUInt32, toNat_join]
  omega

/-- The high word of a value, as a number. -/
theorem toNat_high : (x >>> 32).toUInt32.toNat = x.toNat / 2 ^ 32 := by
  have hx := x.toNat_lt
  rw [UInt64.toNat_toUInt32, UInt64.toNat_shiftRight]
  change x.toNat >>> 32 % 2 ^ 32 = _
  rw [Nat.shiftRight_eq_div_pow]
  omega

/-- The high one of two words that were joined. -/
theorem high_join (hi lo : UInt32) :
    ((hi.toUInt64 <<< 32 ||| lo.toUInt64) >>> 32).toUInt32 = hi := by
  apply UInt32.toNat_inj.1
  have hlo := lo.toNat_lt
  rw [toNat_high, toNat_join]
  omega

/-- Splitting a value and joining its halves gives it back. -/
theorem join_split : (x >>> 32).toUInt32.toUInt64 <<< 32 ||| x.toUInt32.toUInt64 = x := by
  apply UInt64.toNat_inj.1
  rw [toNat_join, toNat_high, UInt64.toNat_toUInt32]
  omega

/-! ## Comparisons -/

/-- The signed order of words is the guest's. -/
theorem eval_slt : IntCC.slt.eval .i32 a.toUInt64 b.toUInt64 = lessS a b := by
  simp [IntCC.eval, Ty.width, signExtend_word, lessS]

/-- The unsigned order of words is the guest's. -/
theorem eval_ult : IntCC.ult.eval .i32 a.toUInt64 b.toUInt64 = decide (a < b) := by
  simp [IntCC.eval, UInt64.lt_iff_toNat_lt, UInt32.lt_iff_toNat_lt]

theorem eval_eq : IntCC.eq.eval .i32 a.toUInt64 b.toUInt64 = (a == b) := by
  simp only [IntCC.eval]
  rw [Bool.eq_iff_iff, beq_iff_eq, beq_iff_eq, toUInt64_inj]

theorem eval_ne : IntCC.ne.eval .i32 a.toUInt64 b.toUInt64 = (a != b) := by
  simp only [IntCC.eval]
  rw [Bool.eq_iff_iff, bne_iff_ne, bne_iff_ne, ne_eq, toUInt64_inj]

/-- A truth value is taken for what it is. -/
theorem isTrue_toUInt64 (c : Bool) : (c.toUInt64 &&& 1 == 1) = c := by
  cases c <;> rfl

/-! ## Floats -/

/-- An operation on singles works on the low words. -/
theorem floatBinary32 (op32 : UInt32 → UInt32 → UInt32) (op64 : UInt64 → UInt64 → UInt64) :
    floatBinary .f32 op32 op64 a.toUInt64 b.toUInt64 &&& Ty.f32.mask = (op32 a b).toUInt64 := by
  simp only [and_f32, floatBinary]
  simp

/-- An operation on doubles works on whole values. -/
theorem floatBinary64 (op32 : UInt32 → UInt32 → UInt32) (op64 : UInt64 → UInt64 → UInt64) :
    floatBinary .f64 op32 op64 x y &&& Ty.f64.mask = op64 x y := by
  simp only [and_f64, floatBinary]

/-- An operation on one single works on its low word. -/
theorem floatUnary32 (op32 : UInt32 → UInt32) (op64 : UInt64 → UInt64) :
    floatUnary .f32 op32 op64 a.toUInt64 &&& Ty.f32.mask = (op32 a).toUInt64 := by
  simp only [and_f32, floatUnary]
  simp

/-- An operation on one double works on the whole value. -/
theorem floatUnary64 (op32 : UInt32 → UInt32) (op64 : UInt64 → UInt64) :
    floatUnary .f64 op32 op64 x &&& Ty.f64.mask = op64 x := by
  simp only [and_f64, floatUnary]

/-- The sign of a single is flipped as the guest does it. -/
theorem eval_fneg32 : UnOp.fneg.eval .f32 a.toUInt64 = (Ieee.neg32 a).toUInt64 := by
  simp only [UnOp.eval, and_f32, Ieee.neg32]
  simp
  rfl

/-- The sign of a single is dropped as the guest does it. -/
theorem eval_fabs32 : UnOp.fabs.eval .f32 a.toUInt64 = (Ieee.abs32 a).toUInt64 := by
  simp only [UnOp.eval, and_f32, Ieee.abs32]
  simp
  rfl

theorem eval_fneg64 : UnOp.fneg.eval .f64 x = Ieee.neg64 x := by
  simp only [UnOp.eval, and_f64, Ieee.neg64]
  rfl

theorem eval_fabs64 : UnOp.fabs.eval .f64 x = Ieee.abs64 x := by
  simp only [UnOp.eval, and_f64, Ieee.abs64]
  rfl

/-- A single is widened as the guest does it. -/
theorem eval_fpext : CastOp.fpext.eval .f32 .f64 a.toUInt64 = Ieee.widen a := by
  simp only [CastOp.eval, and_f64]
  simp

/-- A double is narrowed as the guest does it. -/
theorem eval_fptrunc : CastOp.fptrunc.eval .f64 .f32 x = (Ieee.narrow x).toUInt64 := by
  simp only [CastOp.eval, and_f32]
  simp

/-- A word is rounded to a single as the guest does it. -/
theorem eval_sitofp32 :
    CastOp.sitofp.eval .i32 .f32 a.toUInt64 = (Ieee.ofInt32 a.toInt32.toInt).toUInt64 := by
  simp only [CastOp.eval, and_f32, Ty.width, signExtend_word]
  simp

/-- A word is a double exactly. -/
theorem eval_sitofp64 : CastOp.sitofp.eval .i32 .f64 a.toUInt64 = Ieee.ofInt64 a.toInt32.toInt := by
  simp only [CastOp.eval, and_f64, Ty.width, signExtend_word]
  simp

/-- The low word of a converted number is what the guest's conversion writes. -/
theorem toUInt32_bitsOfInt (n : Int) : (bitsOfInt n).toUInt32 = Ieee.wordOfInt n := by
  apply UInt32.toNat_inj.1
  have h64 : (n % 0x10000000000000000).toNat < 2 ^ 64 := by omega
  have h32 : (n % 0x100000000).toNat < 2 ^ 32 := by omega
  rw [bitsOfInt, Ieee.wordOfInt, UInt64.toNat_toUInt32, UInt64.toNat_ofNat_of_lt' h64,
    UInt32.toNat_ofNat_of_lt' h32]
  omega

/-- A number is converted to a word towards zero, as `trunc` does it. -/
theorem eval_fptosi (ty : Ty) :
    CastOp.fptosi.eval ty .i32 x = (Ieee.toWord .towardZero (ty.value x)).toUInt64 := by
  simp only [CastOp.eval, and_i32, Ty.width]
  rw [toUInt64_inj, toUInt32_bitsOfInt]
  have hlargest : (twoPow (signBit 32).toNat : Int) - 1 = 0x7fffffff := by decide
  have hsmallest : (-0x7fffffff - 1 : Int) = -0x80000000 := by decide
  simp only [truncToInt, Ieee.toWord, hlargest, hsmallest]
  cases (ty.value x).toInt? .towardZero with
  | none => rfl
  | some n =>
    simp only
    split <;> rfl

/-- Rounding to an integral number and then to a word is rounding to a word. -/
theorem toWord_froundEven {ty : Ty} (h : ty.isFloat = true)
    (hx : ty = .f32 → ∃ a : UInt32, x = a.toUInt64) :
    Ieee.toWord .towardZero (ty.value (UnOp.froundEven.eval ty x)) =
      Ieee.toWord .nearestEven (ty.value x) := by
  cases ty with
  | i1 | i32 | i64 => cases h
  | f32 =>
    obtain ⟨a, rfl⟩ := hx rfl
    rw [UnOp.eval, floatUnary32]
    simpa [Ty.value] using Ieee.toWord_roundIntegral32 a
  | f64 =>
    rw [UnOp.eval, floatUnary64]
    exact Ieee.toWord_roundIntegral64 x

/-! ## Condition codes -/

/-- The number of a condition bit fits the field that it is read from. -/
theorem ccAmount : ∀ cc : Fin 8, UInt32.ofNat cc.val &&& 0x1f = UInt32.ofNat cc.val := by decide

/-- A shift by the number of a condition bit is not reduced. -/
theorem toNat_ccAmount : ∀ cc : Fin 8, (UInt32.ofNat cc.val).toNat % 32 = cc.val := by decide

/-- Condition bit `cc` is the bit of that weight. -/
theorem toNat_ccBit : ∀ cc : Fin 8, (State.ccBit cc).toNat = 2 ^ cc.val := by decide

/-- Replacing the bit of a condition code. -/
theorem fccr_or (cc : Fin 8) (v : Bool) :
    a &&& ~~~(State.ccBit cc) |||
        ShiftOp.leftLogical.eval (wordOfBool v) (UInt32.ofNat cc.val) =
      if v then a ||| State.ccBit cc else a &&& ~~~(State.ccBit cc) := by
  rw [ShiftOp.eval, ccAmount]
  cases v with
  | false => simp [wordOfBool]
  | true =>
    change _ ||| State.ccBit cc = a ||| State.ccBit cc
    apply UInt32.toBitVec_inj.1
    apply BitVec.eq_of_getElem_eq
    intro i hi
    simp only [UInt32.toBitVec_or, UInt32.toBitVec_and, UInt32.toBitVec_not, BitVec.getElem_or,
      BitVec.getElem_and, BitVec.getElem_not]
    cases (State.ccBit cc).toBitVec[i] <;> simp

/-- Masking with one bit tests it. -/
theorem and_two_pow (n i : Nat) : n &&& 2 ^ i = if n.testBit i then 2 ^ i else 0 := by
  apply Nat.eq_of_testBit_eq
  intro j
  rw [Nat.testBit_and, Nat.testBit_two_pow]
  by_cases h : i = j
  · subst h
    cases n.testBit i <;> simp
  · cases n.testBit i <;> simp [h]

/-- Testing the bit of a condition code. -/
theorem fccr_and (cc : Fin 8) :
    (ShiftOp.rightLogical.eval a (UInt32.ofNat cc.val) &&& 1 == 0) = (a &&& State.ccBit cc == 0) := by
  have hshift : ((a >>> UInt32.ofNat cc.val) &&& 1).toNat = (a.toNat.testBit cc.val).toNat := by
    rw [UInt32.toNat_and, UInt32.toNat_shiftRight, toNat_ccAmount]
    change _ &&& 1 = _
    rw [Nat.toNat_testBit, Nat.and_one_is_mod, Nat.shiftRight_eq_div_pow]
  have hmask : (a &&& State.ccBit cc).toNat = if a.toNat.testBit cc.val then 2 ^ cc.val else 0 := by
    rw [UInt32.toNat_and, toNat_ccBit, and_two_pow]
  rw [ShiftOp.eval, ccAmount, Bool.eq_iff_iff, beq_iff_eq, beq_iff_eq, ← UInt32.toNat_inj,
    ← UInt32.toNat_inj, hshift, hmask]
  cases a.toNat.testBit cc.val <;> simp

/-! ## Stores -/

/-- A store takes each byte of its value on its own. -/
theorem writeFrom_congr {x y : UInt64} (m : Memory) (addr : UInt32) (n : Nat)
    (h : ∀ k < n, (x >>> UInt64.ofNat (8 * k)).toUInt8 = (y >>> UInt64.ofNat (8 * k)).toUInt8) :
    m.writeFrom addr n x = m.writeFrom addr n y := by
  induction n generalizing m addr with
  | zero => rfl
  | succ n ih =>
    rw [Memory.writeFrom, Memory.writeFrom, h n (Nat.lt_succ_self n)]
    exact ih _ _ fun k hk => h k (Nat.lt_succ_of_lt hk)

/-- Masking to the width of an access keeps the bytes that are stored. -/
theorem toNat_and_widthMask (w : Width) :
    (x &&& widthMask w).toNat = x.toNat % 2 ^ (8 * w.bytes) := by
  have hmask : (widthMask w).toNat = 2 ^ (8 * w.bytes) - 1 := by cases w <;> rfl
  rw [UInt64.toNat_and, hmask]
  exact Nat.and_two_pow_sub_one_eq_mod _ _

/-- Only the low bits of a value are stored. -/
theorem write_and_widthMask (m : Memory) (addr : UInt32) (w : Width) :
    m.write addr w (x &&& widthMask w) = m.write addr w x := by
  apply writeFrom_congr
  intro k hk
  have hk8 : k < 8 := Nat.lt_of_lt_of_le hk (by cases w <;> decide)
  have hsplit : 8 * w.bytes = 8 * k + (8 * (w.bytes - k - 1) + 8) := by omega
  apply UInt8.toNat_inj.1
  rw [Memory.toNat_byte _ hk8, Memory.toNat_byte _ hk8, toNat_and_widthMask, hsplit]
  change _ / 2 ^ (8 * k) % 2 ^ 8 = _ / 2 ^ (8 * k) % 2 ^ 8
  rw [Nat.pow_add, Nat.mod_mul_right_div_self, Nat.pow_add, Nat.mod_mul_left_mod]

end HotRegion.Ssa
