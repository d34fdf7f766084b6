import HotRegion.Isa.Control
import HotRegion.Isa.Decode

/-! # Traces

The record of one executed dynamic block: consecutive instruction words from an entry address up to
and including the delay slot of the first control transfer. -/

namespace HotRegion.Machine

open Isa

/-- The words of a dynamic block. The word at position `i` lies at `entry + 4 * i`, wrapping, so
that addresses are not kept beside the words, and whether a likely branch ends the block is read off
them. A delay slot is included even if a likely branch skipped it. -/
structure Trace where
  entry : UInt32
  words : List UInt32
  deriving DecidableEq, Inhabited

/-- The address of the word at position `i` of code that starts at `entry`. -/
def wordAddr (entry : UInt32) (i : Nat) : UInt32 := entry + 4 * UInt32.ofNat i

/-- Addresses of words add up. -/
theorem wordAddr_add (entry : UInt32) (i j : Nat) :
    wordAddr entry (i + j) = wordAddr (wordAddr entry i) j := by
  unfold wordAddr
  rw [UInt32.ofNat_add, UInt32.mul_add, UInt32.add_assoc]

@[simp] theorem wordAddr_zero (entry : UInt32) : wordAddr entry 0 = entry := by
  simp [wordAddr]

theorem wordAddr_succ (entry : UInt32) (i : Nat) : wordAddr entry (i + 1) = wordAddr entry i + 4 := by
  rw [wordAddr_add]
  rfl

namespace Trace

def length (t : Trace) : Nat := t.words.length

/-- The words with their addresses. -/
def code (t : Trace) : List (UInt32 × UInt32) :=
  t.words.zipIdx.map fun (w, i) => (w, wordAddr t.entry i)

/-- Words that follow others lie after them. -/
theorem code_append (entry : UInt32) (words rest : List UInt32) :
    (⟨entry, words ++ rest⟩ : Trace).code =
      (⟨entry, words⟩ : Trace).code ++ (⟨wordAddr entry words.length, rest⟩ : Trace).code := by
  have hshift : rest.zipIdx words.length = rest.zipIdx.map fun p => (p.1, words.length + p.2) :=
    List.zipIdx_eq_map_add
  simp only [code, List.zipIdx_append, List.map_append, Nat.zero_add, hshift, List.map_map,
    Function.comp_def, wordAddr_add]

/-- Address of the last instruction. -/
def exitAddr (t : Trace) : UInt32 := wordAddr t.entry (t.length - 1)

/-- The second to last instruction, where a block has its transfer, and its address. -/
def penultimate (t : Trace) : Option (UInt32 × Instr) :=
  match t.words.reverse with
  | _ :: word :: rest => some (wordAddr t.entry rest.length, decode word)
  | _ => none

/-- The control transfer that ends the block, and its address. -/
def transfer (t : Trace) : Option (UInt32 × Control) :=
  match t.penultimate with
  | some (addr, insn) =>
    if (insn.control addr).isTransfer then some (addr, insn.control addr) else none
  | none => none

/-- The block ends in a likely branch and its delay slot. -/
def endsInLikely (t : Trace) : Bool :=
  match t.penultimate with
  | some (_, insn) => insn.isLikelyBranch
  | none => false

end Trace

end HotRegion.Machine
