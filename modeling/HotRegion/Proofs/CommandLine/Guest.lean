import HotRegion.CommandLine.Guest
import HotRegion.Proofs.Image.Listing
import HotRegion.Proofs.Image.Loading
import HotRegion.Proofs.Machine.Units
import HotRegion.Proofs.Ssa.Valid
import HotRegion.Proofs.Text.Utf8

/-!
# The guest that is laid out

What the options and the bytes of a program mean is said without the reader: the bytes are an image of
words, and the guest has these words at the load address, zeros in the rest of memory and in all
registers but one, and its stack pointer 16 bytes below the top. The loader gives this guest for every
program that has an image, is not empty and fits memory of a possible size, and none for any other.

The exception are the two smallest sizes that a program fits. Memory of 4 or 8 bytes has no address 16
bytes below its top, and the stack pointer wraps around the address space there.

## Key results

- `readProgram_eq_ok_iff`: the images of programs
- `exists_new_iff`: the sizes of memory
- `loadGuest_lays_out`: when there is a guest, and which
-/

namespace HotRegion.CommandLine

open Machine Image
open Region (Tracked)
open Ssa (bind_eq_ok mapError_eq_ok)

variable {opts : Options} {format : Format} {bytes : List UInt8} {words : List UInt32} {m : Memory}

/-! ## Images -/

/-- The bytes are an image of the words: the big-endian bytes of the words, or a text in UTF-8 that lays
them out. -/
def IsImage : Format → List UInt8 → List UInt32 → Prop
  | .bin, bytes, words => bytes = words.flatMap wordBytes
  | .hex, bytes, words => ∃ text : String, bytes.toByteArray = text.toUTF8 ∧ LaysOut text.toList words

/-- A listing is read if it lays the words out, and not otherwise. -/
theorem parseListing_eq_ok_iff {text : String} :
    parseListing text = .ok words ↔ LaysOut text.toList words := by
  rw [(parseListing_of_hasTokens (hasTokens_iff.2 rfl)).1, laysOut_iff, textTokens, List.flatMap_def]

/-- Words are told apart by their bytes. -/
theorem flatMap_wordBytes_inj {ws : List UInt32}
    (h : words.flatMap wordBytes = ws.flatMap wordBytes) : words = ws := by
  have hlen := congrArg List.length h
  rw [length_flatMap_wordBytes, length_flatMap_wordBytes] at hlen
  refine List.ext_getElem (by omega) fun i hi hi' => ?_
  -- Each word is the value of its own four bytes.
  have hbytes := congrArg Memory.value (congrArg (fun bs => (bs.drop (4 * i)).take 4) h)
  simp only [take_drop_wordBytes hi, take_drop_wordBytes hi', value_wordBytes] at hbytes
  exact UInt32.toNat_inj.1 hbytes

/-- A binary is read if it is the bytes of the words, and not otherwise. -/
theorem parseBinary_eq_ok_iff : parseBinary bytes = .ok words ↔ bytes = words.flatMap wordBytes := by
  unfold parseBinary
  constructor
  · intro h
    split at h
    · rename_i hlen
      cases h
      exact (flatMap_wordBytes hlen).symm
    · cases h
  · rintro rfl
    have hlen : (words.flatMap wordBytes).length % 4 = 0 := by
      rw [length_flatMap_wordBytes]
      exact Nat.mul_mod_right 4 _
    rw [if_pos hlen, flatMap_wordBytes_inj (flatMap_wordBytes hlen)]

/-- A program is read just if its bytes are an image, and then as the words of the image. -/
theorem readProgram_eq_ok_iff : readProgram format bytes = .ok words ↔ IsImage format bytes words := by
  cases format with
  | bin => exact mapError_eq_ok.trans parseBinary_eq_ok_iff
  | hex =>
    rw [readProgram, bind_eq_ok]
    simp only [mapError_eq_ok, Text.decodeUtf8_eq_ok_iff, parseListing_eq_ok_iff]
    rfl

/-! ## Memory -/

/-- Memory can have this size: a power of two of at most four gigabytes. -/
def IsMemorySize (size : Nat) : Prop := ∃ k ≤ 32, size = twoPow k

/-- A memory is made for the allowed sizes and no others. -/
theorem exists_new_iff {size : Nat} : (∃ m, Memory.new size = .ok m) ↔ IsMemorySize size := by
  constructor
  · rintro ⟨m, hm⟩
    exact ⟨m.depth, m.depth_le, (Memory.new_eq_ok_iff.1 hm).1.symm.trans m.size_eq⟩
  · rintro ⟨k, hk, rfl⟩
    exact ⟨.zeroed k hk, Memory.new_eq_ok_iff.2 ⟨rfl, fun j _ => ByteTree.get_zero j⟩⟩

/-- Loading words does not change the size. -/
theorem size_loadWords (m : Memory) (base : UInt32) (words : List UInt32) :
    (m.loadWords base words).size = m.size := by
  rw [Memory.loadWords_eq, Memory.size_loadBytes]

/-! ## The guest -/

/-- The state holds the words at the load address and starts at the entry. Its stack pointer is 16 bytes
below the top of memory, or 16 bytes below address zero of the next turn around the address space if
memory is smaller than that, and all else is zero. -/
structure LaidOut (opts : Options) (words : List UInt32) (s : State) : Prop where
  size : s.mem.size = opts.memSize.toNat
  word : ∀ (i : Nat) (h : i < words.length),
    s.mem.readWord (opts.base + UInt32.ofNat (4 * i)) = words[i]
  rest : ∀ j < s.mem.size, (∀ k < 4 * words.length, (opts.base.toNat + k) % s.mem.size ≠ j) →
    s.mem.byteAt j = 0
  pc : s.pc = opts.entry.getD opts.base
  stack : 16 ≤ opts.memSize.toNat → (s.reg .sp).toNat = opts.memSize.toNat - 16
  wraps : opts.memSize.toNat < 16 → (s.reg .sp).toNat = 0x100000000 + opts.memSize.toNat - 16
  units : ∀ u : Tracked, u ≠ .gpr .sp → s.unit u = 0

/-- The first state has zeros everywhere but in memory. -/
theorem unit_initial (m : Memory) (pc : UInt32) (u : Tracked) : (State.initial m pc).unit u = 0 := by
  cases u with
  | hiLo h => cases h <;> rfl
  | icnt => rfl
  | gpr r => simp [State.unit, State.initial, State.reg]
  | fpr f => simp [State.unit, State.initial, State.fprBits]
  | fcr c => simp [State.unit, State.initial, State.fcrBits]

/-- The stack pointer, modulo the address space. -/
theorem toNat_stackPointer {size : UInt64} (h : size.toNat ≤ 0x100000000) :
    (size - 16).toUInt32.toNat = (size.toNat + 0x100000000 - 16) % 0x100000000 := by
  rw [UInt64.toNat_toUInt32, UInt64.toNat_sub]
  change (0x10000000000000000 - 16 + size.toNat) % _ % _ = _
  omega

/-- A program that fits is laid out. -/
theorem layOut_eq_ok (hne : words ≠ []) (hm : Memory.new opts.memSize.toNat = .ok m)
    (hfits : 4 * words.length ≤ opts.memSize.toNat) :
    layOut opts words = .ok ((State.initial (m.loadWords opts.base words)
      (opts.entry.getD opts.base)).setReg .sp (opts.memSize - 16).toUInt32) := by
  rw [layOut, if_neg (by simpa using hne)]
  simp only [hm]
  rw [if_neg (Nat.not_lt.2 hfits)]

/-- Words that fit memory of a possible size are laid out. -/
theorem layOut_lays_out (hne : words ≠ []) (hsize : IsMemorySize opts.memSize.toNat)
    (hfits : 4 * words.length ≤ opts.memSize.toNat) :
    ∃ s, layOut opts words = .ok s ∧ LaidOut opts words s := by
  obtain ⟨m, hm⟩ := exists_new_iff.2 hsize
  obtain ⟨hmem, hzero⟩ := Memory.new_eq_ok_iff.1 hm
  -- No more than the address space, so the stack pointer is cut to 32 bits without a loss.
  have hle : opts.memSize.toNat ≤ 0x100000000 := by
    obtain ⟨k, hk, hpow⟩ := hsize
    rw [hpow]
    exact Nat.le_of_dvd (by decide) (twoPow_dvd hk)
  have hsp := toNat_stackPointer hle
  have hreg : ∀ s : State, (s.setReg .sp (opts.memSize - 16).toUInt32).reg .sp =
      (opts.memSize - 16).toUInt32 := fun s => by
    rw [State.reg_setReg, if_pos ⟨rfl, rfl⟩]
  refine ⟨_, layOut_eq_ok hne hm hfits, ?_⟩
  constructor
  case size =>
    rw [State.mem_setReg, State.initial, size_loadWords, hmem]
  case word =>
    intro i h
    rw [State.mem_setReg]
    exact Memory.readWord_loadWords m opts.base (by rwa [hmem]) h
  case rest =>
    rw [State.mem_setReg]
    simp only [State.initial, size_loadWords]
    intro j hj h
    rw [Memory.byteAt_loadWords_of_ne m opts.base words hj h, hzero j hj]
  case pc => exact State.pc_setReg ..
  case stack =>
    intro h
    rw [hreg, hsp]
    omega
  case wraps =>
    intro h
    rw [hreg, hsp]
    omega
  case units =>
    intro u hu
    rw [State.unit_setReg, if_neg fun h => hu h.1, unit_initial]

/-- Other words are refused. -/
theorem layOut_refuses (h : words = [] ∨ ¬ IsMemorySize opts.memSize.toNat ∨
    opts.memSize.toNat < 4 * words.length) : ∃ e, layOut opts words = .error e := by
  unfold layOut
  split
  · exact ⟨_, rfl⟩
  · rename_i hne
    split
    · exact ⟨_, rfl⟩
    · rename_i m hm
      have hlong : opts.memSize.toNat < 4 * words.length := by
        rcases h with rfl | h | h
        · exact absurd rfl hne
        · exact absurd (exists_new_iff.1 ⟨m, hm⟩) h
        · exact h
      rw [if_pos hlong]
      exact ⟨_, rfl⟩

/-- Loading a program is laying its words out. -/
theorem loadGuest_of_isImage (h : IsImage opts.programFormat bytes words) :
    loadGuest opts bytes = layOut opts words := by
  rw [loadGuest, readProgram_eq_ok_iff.2 h]
  rfl

/-- When there is a guest, and which.

There is none just if the bytes are no image, the program is empty, memory cannot have the size or the
program does not fit it. In all other cases there is one, in which all words of the program read back,
aligned or not and also around the top of memory or of the address space, every other byte of memory is
zero, execution starts at the entry or else at the load address, the stack pointer is 16 bytes below the
top of memory if there are as many, and every other register and the count of instructions is zero. -/
theorem loadGuest_lays_out (opts : Options) (bytes : List UInt8) :
    ((∃ e, loadGuest opts bytes = .error e) ↔
      (∀ words, ¬ IsImage opts.programFormat bytes words) ∨
      ∃ words, IsImage opts.programFormat bytes words ∧ (words = [] ∨
        ¬ IsMemorySize opts.memSize.toNat ∨ opts.memSize.toNat < 4 * words.length)) ∧
    ∀ words, IsImage opts.programFormat bytes words → words ≠ [] →
      IsMemorySize opts.memSize.toNat → 4 * words.length ≤ opts.memSize.toNat →
      ∃ s, loadGuest opts bytes = .ok s ∧ LaidOut opts words s := by
  have hloads : ∀ words, IsImage opts.programFormat bytes words → words ≠ [] →
      IsMemorySize opts.memSize.toNat → 4 * words.length ≤ opts.memSize.toNat →
      ∃ s, loadGuest opts bytes = .ok s ∧ LaidOut opts words s := by
    intro words himage hne hsize hfits
    rw [loadGuest_of_isImage himage]
    exact layOut_lays_out hne hsize hfits
  -- What can be read and fits is loaded, so an error leaves the two cases that are named.
  refine ⟨⟨?_, ?_⟩, hloads⟩
  · rintro ⟨e, he⟩
    by_cases himage : ∃ words, IsImage opts.programFormat bytes words
    · obtain ⟨words, himage⟩ := himage
      refine .inr ⟨words, himage, ?_⟩
      by_contra hgood
      simp only [not_or, not_not, Nat.not_lt] at hgood
      obtain ⟨s, hs, -⟩ := hloads words himage hgood.1 hgood.2.1 hgood.2.2
      rw [hs] at he
      cases he
    · exact .inl (not_exists.1 himage)
  · rintro (hnone | ⟨words, himage, hbad⟩)
    · rw [loadGuest]
      cases hread : readProgram opts.programFormat bytes with
      | error e => exact ⟨e, rfl⟩
      | ok words => exact absurd (readProgram_eq_ok_iff.1 hread) (hnone words)
    · rw [loadGuest_of_isImage himage]
      exact layOut_refuses hbad

/-- Four words fill memory of 16 bytes from the last word of the address space on. The stack pointer is
the address of its first byte. -/
theorem loadGuest_lays_out_full :
    ∃ s, loadGuest { base := 0xfffffffc, entry := some 4, memSize := 16 }
        [0x31, 0x20, 0x32, 0x20, 0x33, 0x20, 0x64] = .ok s ∧
      s.mem.readWord 0xfffffffc = 1 ∧ s.mem.readWord 8 = 0xd ∧ s.pc = 4 ∧ s.reg .sp = 0 := by
  have himage : IsImage .hex [0x31, 0x20, 0x32, 0x20, 0x33, 0x20, 0x64] [1, 2, 3, 0xd] :=
    readProgram_eq_ok_iff.1 (by decide +kernel)
  obtain ⟨s, hs, hlaid⟩ := (loadGuest_lays_out
    { base := 0xfffffffc, entry := some 4, memSize := 16 } _).2 _ himage (by decide)
    ⟨4, by decide, rfl⟩ (by decide)
  exact ⟨s, hs, hlaid.word 0 (by decide), hlaid.word 3 (by decide), hlaid.pc,
    UInt32.toNat_inj.1 (hlaid.stack (by decide))⟩

/-- Options for memory of eight bytes. -/
def eightBytes : Options := { base := 0, memSize := 8 }

/-- A program of one word is laid out in memory of 8 bytes, with a stack pointer that is not 16 bytes
below the top. -/
theorem stackPointer_wraps : ∃ s, loadGuest eightBytes
      [0x30, 0x30, 0x30, 0x30, 0x30, 0x30, 0x30, 0x64] = .ok s ∧
    s.reg .sp = 0xfffffff8 ∧ (s.reg .sp).toNat + 16 ≠ eightBytes.memSize.toNat := by
  have himage : IsImage eightBytes.programFormat
      [0x30, 0x30, 0x30, 0x30, 0x30, 0x30, 0x30, 0x64] [0xd] :=
    readProgram_eq_ok_iff.1 (by decide +kernel)
  obtain ⟨s, hs, hlaid⟩ : ∃ s, layOut eightBytes [0xd] = .ok s ∧ LaidOut eightBytes [0xd] s :=
    layOut_lays_out (by decide) ⟨3, by decide, rfl⟩ (by decide)
  have hsp : (s.reg .sp).toNat = 0xfffffff8 := hlaid.wraps (by decide)
  refine ⟨s, ?_, UInt32.toNat_inj.1 hsp, ?_⟩
  · rwa [loadGuest_of_isImage himage]
  · rw [hsp]
    decide

end HotRegion.CommandLine
