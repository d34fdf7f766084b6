import HotRegion.Isa.Decode

/-!
# What words decode to

The format of an instruction word leaves two traces in what it decodes to. A conversion between
floating-point formats never has the same format twice, and a word outside the instruction set is
kept as it is. Each table of the decoder is followed once here.

## Key results

- `reads_decode`: both facts, of every word
- `decode_ne_convert`: no word is a conversion from a format to itself
-/

namespace HotRegion.Isa

namespace Instr

/-- A decoded instruction converts between two formats, and one outside the instruction set is kept
as the word it was decoded from. -/
def Reads (w : UInt32) : Instr → Prop
  | fpUnary (.convert target source) _ _ => target ≠ source
  | unknown word => word = w
  | _ => True

/-- The instructions without an opcode of their own are read from the fields of their word. -/
theorem reads_decodeSpecial (w : UInt32) : Reads w (decodeSpecial w) := by
  unfold decodeSpecial
  split <;> trivial

/-- The branches that compare with zero are read from the fields of their word. -/
theorem reads_decodeRegImm (w : UInt32) : Reads w (decodeRegImm w) := by
  unfold decodeRegImm
  split <;> trivial

/-- The multiplications into a register and the counts of zeros are read from the fields of their
word. -/
theorem reads_decodeSpecial2 (w : UInt32) : Reads w (decodeSpecial2 w) := by
  unfold decodeSpecial2
  split <;> trivial

/-- The extensions of signs are read from the fields of their word. -/
theorem reads_decodeSpecial3 (w : UInt32) : Reads w (decodeSpecial3 w) := by
  unfold decodeSpecial3
  split <;> trivial

/-- The operations of one format are read from the fields of their word. -/
theorem reads_decodeFp (fmt : FpFormat) (w : UInt32) : Reads w (decodeFp fmt w) := by
  unfold decodeFp
  split
  case h_10 | h_11 => split <;> first | exact FpFormat.noConfusion | rfl
  case h_13 => split <;> trivial
  all_goals trivial

/-- The conversions of words are read from the fields of their word. -/
theorem reads_decodeFpWord (w : UInt32) : Reads w (decodeFpWord w) := by
  unfold decodeFpWord
  split <;> trivial

/-- The floating-point instructions are read from the fields of their word. -/
theorem reads_decodeFpu (w : UInt32) : Reads w (decodeFpu w) := by
  unfold decodeFpu
  split
  case h_2 | h_4 => split <;> trivial
  case h_6 => exact reads_decodeFp .single w
  case h_7 => exact reads_decodeFp .double w
  case h_8 => exact reads_decodeFpWord w
  all_goals trivial

/-- Every instruction is read from the fields of its word. -/
theorem reads_decode (w : UInt32) : Reads w (decode w) := by
  unfold decode
  split
  · trivial
  · split
    case h_1 => exact reads_decodeSpecial w
    case h_2 => exact reads_decodeRegImm w
    case h_17 => exact reads_decodeFpu w
    case h_22 => exact reads_decodeSpecial2 w
    case h_23 => exact reads_decodeSpecial3 w
    all_goals trivial

end Instr

/-- Every decoded conversion is between two formats. -/
theorem decode_ne_convert (w : UInt32) (fmt : FpFormat) (fd fs : Fpr) :
    decode w ≠ .fpUnary (.convert fmt fmt) fd fs := by
  intro h
  have hreads := Instr.reads_decode w
  rw [h] at hreads
  exact hreads rfl

end HotRegion.Isa
