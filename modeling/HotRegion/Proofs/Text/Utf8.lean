import HotRegion.Text.Utf8
import Mathlib.Data.List.Basic

/-!
# The texts that are decoded

A lead byte fixes how many bytes follow it and the range of the first of them, and with these ranges a
lead byte and what follows it are the encoding of exactly one character: no code is too long, none is a
surrogate and none lies beyond the last code point. So bytes are decoded just if they are the encoding
of some text, and then to that text.

## Key results

- `decodeTail_eq_ok_iff`: what is read after a lead byte
- `utf8EncodeChar_of_lead`, `exists_lead`: a lead byte with what it announces encodes one character
- `decodeUtf8_eq_ok_iff`: the texts that are decoded
-/

namespace HotRegion.Text

variable {b low high : UInt8} {l : Lead} {bytes rest : List UInt8} {c : Char} {cs : List Char}
  {code n index seen follow fuel : Nat}

/-! ## What follows a lead byte -/

/-- The first byte lies between `low` and `high`, and each byte after it carries six bits of a code
point. -/
def Continues (low high : UInt8) : List UInt8 → Prop
  | [] => True
  | b :: rest => low ≤ b ∧ b ≤ high ∧ Continues 0x80 0xbf rest

/-- A code point with the bits of the bytes after it appended. -/
def appendBits (code : Nat) : List UInt8 → Nat
  | [] => code
  | b :: rest => appendBits (code * 64 + b.toNat % 64) rest

/-- The bytes announced are taken off, if they are there and each lies in its range. -/
theorem decodeTail_eq_ok_iff : decodeTail index seen code low high follow bytes = .ok (n, rest) ↔
    ∃ tail, bytes = tail ++ rest ∧ tail.length = follow ∧ Continues low high tail ∧
      n = appendBits code tail := by
  induction follow generalizing seen code low high bytes with
  | zero =>
    constructor
    · intro h
      cases h
      exact ⟨[], rfl, rfl, trivial, rfl⟩
    · rintro ⟨tail, rfl, hlen, -, rfl⟩
      cases List.eq_nil_of_length_eq_zero hlen
      rfl
  | succ follow ih =>
    cases bytes with
    | nil =>
      constructor
      · intro h
        cases h
      · rintro ⟨tail, happend, hlen, -⟩
        rw [(List.append_eq_nil_iff.1 happend.symm).1] at hlen
        cases hlen
    | cons b bytes =>
      -- The next byte is checked against its range, and those behind it by induction.
      rw [decodeTail]
      constructor
      · intro h
        split at h
        · rename_i hrange
          obtain ⟨hlow, hhigh⟩ := by simpa using hrange
          obtain ⟨tail, rfl, rfl, hcont, rfl⟩ := ih.1 h
          exact ⟨b :: tail, rfl, rfl, ⟨hlow, hhigh, hcont⟩, rfl⟩
        · cases h
      · rintro ⟨tail, happend, hlen, hcont, rfl⟩
        cases tail with
        | nil => cases hlen
        | cons d tail =>
          obtain ⟨rfl, rfl⟩ := List.cons.inj happend
          obtain ⟨hlow, hhigh, hcont⟩ := hcont
          rw [if_pos (by simp [hlow, hhigh])]
          exact ih.2 ⟨tail, rfl, Nat.succ.inj hlen, hcont, rfl⟩

/-! ## One character -/

/-- The lead bytes and what they announce, by the number of bytes to follow. -/
theorem lead?_eq_some_iff : lead? b = some l ↔
    b.toNat < 0x80 ∧ l = ⟨0, b.toNat, 0, 0⟩ ∨
    0xc2 ≤ b.toNat ∧ b.toNat < 0xe0 ∧ l = ⟨1, b.toNat - 0xc0, 0x80, 0xbf⟩ ∨
    0xe0 ≤ b.toNat ∧ b.toNat < 0xf0 ∧ l = ⟨2, b.toNat - 0xe0, if b.toNat = 0xe0 then 0xa0 else 0x80,
      if b.toNat = 0xed then 0x9f else 0xbf⟩ ∨
    0xf0 ≤ b.toNat ∧ b.toNat < 0xf5 ∧ l = ⟨3, b.toNat - 0xf0, if b.toNat = 0xf0 then 0x90 else 0x80,
      if b.toNat = 0xf4 then 0x8f else 0xbf⟩ := by
  unfold lead?
  simp only [UInt8.lt_iff_toNat_lt, UInt8.le_iff_toNat_le, ← UInt8.toNat_inj, Bool.and_eq_true,
    decide_eq_true_eq, UInt8.reduceToNat]
  grind

/-- A lower bound that a condition sharpens. -/
theorem ite_le_iff {p : Prop} [Decidable p] {x y d : Nat} (h : y ≤ x) :
    (if p then x else y) ≤ d ↔ y ≤ d ∧ (¬ p ∨ x ≤ d) := by
  by_cases hp : p
  · simp only [hp, if_true, not_true, false_or]
    omega
  · simp [hp]

/-- An upper bound that a condition sharpens. -/
theorem le_ite_iff {p : Prop} [Decidable p] {x y d : Nat} (h : x ≤ y) :
    d ≤ (if p then x else y) ↔ d ≤ y ∧ (¬ p ∨ d ≤ x) := by
  by_cases hp : p
  · simp only [hp, if_true, not_true, false_or]
    omega
  · simp [hp]

/-- A character of seven bits is one byte. -/
theorem utf8EncodeChar_one (h : c.toNat < 0x80) : String.utf8EncodeChar c = [UInt8.ofNat c.toNat] :=
  if_pos (Nat.le_of_lt_succ h)

/-- A character of eleven bits is two bytes. -/
theorem utf8EncodeChar_two (h : 0x80 ≤ c.toNat) (h' : c.toNat < 0x800) :
    String.utf8EncodeChar c =
      [UInt8.ofNat (c.toNat / 64 + 0xc0), UInt8.ofNat (c.toNat % 64 + 0x80)] := by
  have hlead : c.toNat / 64 % 32 = c.toNat / 64 := Nat.mod_eq_of_lt (by omega)
  rw [← hlead]
  exact (if_neg (Nat.not_le_of_lt h)).trans (if_pos (Nat.le_of_lt_succ h'))

/-- A character of sixteen bits is three bytes. -/
theorem utf8EncodeChar_three (h : 0x800 ≤ c.toNat) (h' : c.toNat < 0x10000) :
    String.utf8EncodeChar c = [UInt8.ofNat (c.toNat / 64 / 64 + 0xe0),
      UInt8.ofNat (c.toNat / 64 % 64 + 0x80), UInt8.ofNat (c.toNat % 64 + 0x80)] := by
  have hlead : c.toNat / 4096 % 16 = c.toNat / 64 / 64 := by omega
  have hone : 0x7f < c.toNat := by omega
  rw [← hlead]
  exact (if_neg (Nat.not_le_of_lt hone)).trans
    ((if_neg (Nat.not_le_of_lt h)).trans (if_pos (Nat.le_of_lt_succ h')))

/-- Any other character is four bytes. -/
theorem utf8EncodeChar_four (h : 0x10000 ≤ c.toNat) (h' : c.toNat < 0x110000) :
    String.utf8EncodeChar c = [UInt8.ofNat (c.toNat / 64 / 64 / 64 + 0xf0),
      UInt8.ofNat (c.toNat / 64 / 64 % 64 + 0x80), UInt8.ofNat (c.toNat / 64 % 64 + 0x80),
      UInt8.ofNat (c.toNat % 64 + 0x80)] := by
  have hlead : c.toNat / 262144 % 8 = c.toNat / 64 / 64 / 64 := by omega
  have hnext : c.toNat / 4096 % 64 = c.toNat / 64 / 64 % 64 := by omega
  have hone : 0x7f < c.toNat := by omega
  have htwo : 0x7ff < c.toNat := by omega
  rw [← hlead, ← hnext]
  exact (if_neg (Nat.not_le_of_lt hone)).trans
    ((if_neg (Nat.not_le_of_lt htwo)).trans (if_neg (Nat.not_le_of_lt h)))

/-! The bits that a byte brings are the last six of the code point, and what was read before it is
above them. -/

/-- The bits before a continuation byte. -/
theorem appended_div (code n : Nat) : (code * 64 + n % 64) / 64 = code := by
  omega

/-- The bits of a continuation byte. -/
theorem appended_mod (code n : Nat) : (code * 64 + n % 64) % 64 = n % 64 := by
  omega

/-- A byte after the lead byte is its six bits under the mark of such bytes. -/
theorem ofNat_continuation (hlow : 0x80 ≤ b.toNat) (hhigh : b.toNat ≤ 0xbf) :
    UInt8.ofNat (b.toNat % 64 + 0x80) = b := by
  have hbits : b.toNat % 64 + 0x80 = b.toNat := by omega
  rw [hbits, UInt8.ofNat_toNat]

/-- A lead byte is its bits above the mark that says how many bytes follow. -/
theorem ofNat_lead (h : n ≤ b.toNat) : UInt8.ofNat (b.toNat - n + n) = b := by
  rw [Nat.sub_add_cancel h, UInt8.ofNat_toNat]

/-- A lead byte and what it announces are the encoding of the character with the code point read. -/
theorem utf8EncodeChar_of_lead {tail : List UInt8} (hlead : lead? b = some l)
    (hlen : tail.length = l.follow) (hcont : Continues l.low l.high tail) :
    ∃ c : Char, c.toNat = appendBits l.code tail ∧ String.utf8EncodeChar c = b :: tail := by
  -- The ranges exclude the surrogates and what lies beyond the last code point.
  have hchar : ∀ {n : Nat}, n < 0xd800 ∨ 0xdfff < n ∧ n < 0x110000 → ∃ c : Char, c.toNat = n :=
    fun h => ⟨Char.ofNatAux _ h, rfl⟩
  have hb := b.toNat_lt
  rcases lead?_eq_some_iff.1 hlead with ⟨hr, rfl⟩ | ⟨hr, hr', rfl⟩ | ⟨hr, hr', rfl⟩ | ⟨hr, hr', rfl⟩
  · obtain rfl := List.eq_nil_of_length_eq_zero hlen
    obtain ⟨c, hc⟩ := hchar (n := b.toNat) (by omega)
    exact ⟨c, hc, by rw [utf8EncodeChar_one (by omega), hc, UInt8.ofNat_toNat]⟩
  · obtain ⟨d, rfl⟩ := List.length_eq_one_iff.1 hlen
    simp only [Continues, and_true, UInt8.le_iff_toNat_le, UInt8.reduceToNat] at hcont
    obtain ⟨hd, hd'⟩ := hcont
    have hmark : 0xc0 ≤ b.toNat := by omega
    obtain ⟨c, hc⟩ := hchar (n := appendBits (b.toNat - 0xc0) [d]) (by
      simp only [appendBits]
      omega)
    refine ⟨c, hc, ?_⟩
    simp only [appendBits] at hc
    rw [utf8EncodeChar_two (by omega) (by omega), hc]
    simp only [appended_div, appended_mod, ofNat_lead hmark, ofNat_continuation hd hd']
  · obtain ⟨d, e, rfl⟩ := List.length_eq_two.1 hlen
    simp only [Continues, and_true, UInt8.le_iff_toNat_le, UInt8.reduceToNat,
      apply_ite UInt8.toNat, ite_le_iff, le_ite_iff, Nat.reduceLeDiff] at hcont
    obtain ⟨⟨hd, hlow⟩, ⟨hd', hhigh⟩, he, he'⟩ := hcont
    obtain ⟨c, hc⟩ := hchar (n := appendBits (b.toNat - 0xe0) [d, e]) (by
      simp only [appendBits]
      omega)
    refine ⟨c, hc, ?_⟩
    simp only [appendBits] at hc
    rw [utf8EncodeChar_three (by omega) (by omega), hc]
    simp only [appended_div, appended_mod, ofNat_lead hr, ofNat_continuation hd hd',
      ofNat_continuation he he']
  · obtain ⟨d, e, f, rfl⟩ := List.length_eq_three.1 hlen
    simp only [Continues, and_true, UInt8.le_iff_toNat_le, UInt8.reduceToNat,
      apply_ite UInt8.toNat, ite_le_iff, le_ite_iff, Nat.reduceLeDiff] at hcont
    obtain ⟨⟨hd, hlow⟩, ⟨hd', hhigh⟩, he, he', hf, hf'⟩ := hcont
    obtain ⟨c, hc⟩ := hchar (n := appendBits (b.toNat - 0xf0) [d, e, f]) (by
      simp only [appendBits]
      omega)
    refine ⟨c, hc, ?_⟩
    simp only [appendBits] at hc
    rw [utf8EncodeChar_four (by omega) (by omega), hc]
    simp only [appended_div, appended_mod, ofNat_lead hr, ofNat_continuation hd hd',
      ofNat_continuation he he', ofNat_continuation hf hf']

/-- The encoding of a character is a lead byte and what it announces. -/
theorem exists_lead (c : Char) : ∃ b tail l, String.utf8EncodeChar c = b :: tail ∧
    lead? b = some l ∧ tail.length = l.follow ∧ Continues l.low l.high tail ∧
    c.toNat = appendBits l.code tail := by
  have hvalid : c.toNat < 0xd800 ∨ 0xdfff < c.toNat ∧ c.toNat < 0x110000 := c.valid
  -- The lead byte carries the top bits, and each byte after it six bits below them.
  have hbyte : ∀ k < 0x100, (UInt8.ofNat k).toNat = k := fun k hk => UInt8.toNat_ofNat_of_lt' hk
  have hnext : ∀ k, (UInt8.ofNat (k % 64 + 0x80)).toNat = k % 64 + 0x80 := fun k =>
    hbyte _ (by omega)
  have hbits : ∀ k, (UInt8.ofNat (k % 64 + 0x80)).toNat % 64 = k % 64 := fun k => by
    rw [hnext]
    omega
  rcases Nat.lt_or_ge c.toNat 0x80 with h1 | h1
  · have hlead := hbyte c.toNat (by omega)
    refine ⟨_, _, _, utf8EncodeChar_one h1, lead?_eq_some_iff.2 (.inl ⟨?_, rfl⟩), rfl, trivial,
      hlead.symm⟩
    omega
  rcases Nat.lt_or_ge c.toNat 0x800 with h2 | h2
  · have hlead := hbyte (c.toNat / 64 + 0xc0) (by omega)
    refine ⟨_, _, _, utf8EncodeChar_two h1 h2, lead?_eq_some_iff.2 (.inr (.inl ⟨?_, ?_, rfl⟩)), rfl,
      ?_, ?_⟩
    · omega
    · omega
    · simp only [Continues, and_true, UInt8.le_iff_toNat_le, UInt8.reduceToNat, hnext]
      omega
    · simp only [appendBits, hlead, Nat.add_sub_cancel, hbits, Nat.div_add_mod']
  rcases Nat.lt_or_ge c.toNat 0x10000 with h3 | h3
  · have hlead := hbyte (c.toNat / 64 / 64 + 0xe0) (by omega)
    refine ⟨_, _, _, utf8EncodeChar_three h2 h3,
      lead?_eq_some_iff.2 (.inr (.inr (.inl ⟨?_, ?_, rfl⟩))), rfl, ?_, ?_⟩
    · omega
    · omega
    · simp only [Continues, and_true, UInt8.le_iff_toNat_le, UInt8.reduceToNat,
        apply_ite UInt8.toNat, ite_le_iff, le_ite_iff, Nat.reduceLeDiff, hlead, hnext, true_and]
      omega
    · simp only [appendBits, hlead, Nat.add_sub_cancel, hbits, Nat.div_add_mod']
  · have hlead := hbyte (c.toNat / 64 / 64 / 64 + 0xf0) (by omega)
    refine ⟨_, _, _, utf8EncodeChar_four h3 (by omega),
      lead?_eq_some_iff.2 (.inr (.inr (.inr ⟨?_, ?_, rfl⟩))), rfl, ?_, ?_⟩
    · omega
    · omega
    · simp only [Continues, and_true, UInt8.le_iff_toNat_le, UInt8.reduceToNat,
        apply_ite UInt8.toNat, ite_le_iff, le_ite_iff, Nat.reduceLeDiff, hlead, hnext, true_and]
      omega
    · simp only [appendBits, hlead, Nat.add_sub_cancel, hbits, Nat.div_add_mod']

/-! ## Texts -/

/-- Any bytes that are decoded are the encoding of what they are decoded to. -/
theorem flatMap_of_decodeFrom (hfuel : bytes.length ≤ fuel)
    (h : decodeFrom fuel index bytes = .ok cs) : cs.flatMap String.utf8EncodeChar = bytes := by
  induction fuel generalizing index bytes cs with
  | zero =>
    cases List.eq_nil_of_length_eq_zero (Nat.le_zero.1 hfuel)
    cases h
    rfl
  | succ fuel ih =>
    cases bytes with
    | nil =>
      cases h
      rfl
    | cons b bytes =>
      rw [decodeFrom] at h
      cases hlead : lead? b with
      | none => simp [hlead] at h
      | some l =>
        simp only [hlead] at h
        cases htail : decodeTail index 1 l.code l.low l.high l.follow bytes with
        | error e => simp [htail] at h
        | ok p =>
          obtain ⟨n, rest⟩ := p
          simp only [htail] at h
          obtain ⟨tail, rfl, hlen, hcont, rfl⟩ := decodeTail_eq_ok_iff.1 htail
          cases hrest : decodeFrom fuel (index + l.follow + 1) rest with
          | error e => simp [hrest, Except.map] at h
          | ok ds =>
            rw [hrest] at h
            cases h
            -- The character that was read is encoded as its bytes again.
            obtain ⟨c, hc, henc⟩ := utf8EncodeChar_of_lead hlead hlen hcont
            rw [← hc, Char.ofNat_toNat, List.flatMap_cons, henc, ih ?_ hrest]
            · rfl
            · simp only [List.length_cons, List.length_append] at hfuel
              omega

/-- The encoding of a text is decoded to it. -/
theorem decodeFrom_flatMap (index : Nat) (hfuel : (cs.flatMap String.utf8EncodeChar).length ≤ fuel) :
    decodeFrom fuel index (cs.flatMap String.utf8EncodeChar) = .ok cs := by
  induction cs generalizing index fuel with
  | nil => cases fuel <;> rfl
  | cons c cs ih =>
    obtain ⟨b, tail, l, henc, hlead, hlen, hcont, hcode⟩ := exists_lead c
    rw [List.flatMap_cons, henc] at hfuel ⊢
    cases fuel with
    | zero => cases hfuel
    | succ fuel =>
      have htail : decodeTail index 1 l.code l.low l.high l.follow
          (tail ++ cs.flatMap String.utf8EncodeChar) =
          .ok (c.toNat, cs.flatMap String.utf8EncodeChar) :=
        decodeTail_eq_ok_iff.2 ⟨tail, rfl, hlen, hcont, hcode⟩
      have hlt : (cs.flatMap String.utf8EncodeChar).length ≤ fuel := by
        simp only [List.cons_append, List.length_cons, List.length_append] at hfuel
        omega
      have hrest := ih (index + l.follow + 1) hlt
      rw [List.cons_append, decodeFrom]
      simp only [hlead, htail, hrest, Except.map, Char.ofNat_toNat]

/-- Bytes are decoded to a text just if they are its encoding. -/
theorem decodeUtf8_eq_ok_iff {text : String} :
    decodeUtf8 bytes = .ok text ↔ bytes.toByteArray = text.toUTF8 := by
  -- The encoding of a text is that of its characters, one after the other.
  have hencode : text.toUTF8 = (text.toList.flatMap String.utf8EncodeChar).toByteArray :=
    String.utf8Encode_toList.symm
  rw [hencode, List.toByteArray_inj, decodeUtf8]
  constructor
  · intro h
    cases hcs : decodeFrom bytes.length 0 bytes with
    | error e => simp [hcs, Except.map] at h
    | ok cs =>
      rw [hcs] at h
      cases h
      rw [String.toList_ofList]
      exact (flatMap_of_decodeFrom (Nat.le_refl _) hcs).symm
  · rintro rfl
    rw [decodeFrom_flatMap 0 (Nat.le_refl _)]
    simp [Except.map]

end HotRegion.Text
