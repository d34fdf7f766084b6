import HotRegion.Machine.Memory

/-!
# Stores and words

A store changes a word of memory only if it shares a byte with it. Addresses wrap around the size of
memory, so two accesses share a byte if some of their addresses name the same index.

## Key results

- `Memory.readWord_write`: a store that does not overlap a word keeps it
-/

namespace HotRegion.Machine

/-- A store at an address with a width. -/
abbrev Store := UInt32 × Width

namespace Memory

variable {m : Memory} {addr a : UInt32} {n : Nat} {v : UInt64}

/-- The store shares a byte with the word at `addr`. -/
def Overlaps (m : Memory) (store : Store) (addr : UInt32) : Prop :=
  ∃ i < store.2.bytes, ∃ j < 4,
    m.index (store.1 + UInt32.ofNat i) = m.index (addr + UInt32.ofNat j)

instance (m : Memory) (store : Store) (addr : UInt32) : Decidable (m.Overlaps store addr) :=
  inferInstanceAs (Decidable (∃ i < _, ∃ j < _, _))

/-- The place of an address depends on the size alone. -/
theorem index_congr {m' : Memory} (h : m'.size = m.size) (addr : UInt32) :
    m'.index addr = m.index addr := by
  rw [index, index, h]

/-- Whether a store reaches an address depends on the size alone. -/
theorem overlaps_congr {m' : Memory} (h : m'.size = m.size) (store : Store) (addr : UInt32) :
    m'.Overlaps store addr ↔ m.Overlaps store addr := by
  simp only [Overlaps, index_congr h]

/-- Writing bytes does not change the size. -/
theorem size_writeFrom (m : Memory) (addr : UInt32) (n : Nat) (v : UInt64) :
    (m.writeFrom addr n v).size = m.size := by
  induction n generalizing m addr with
  | zero => rfl
  | succ n ih => rw [writeFrom, ih, size_writeByte]

/-- A store does not change the size. -/
theorem size_write (m : Memory) (addr : UInt32) (width : Width) (v : UInt64) :
    (m.write addr width v).size = m.size := size_writeFrom ..

/-- An offset from the next address. -/
theorem succ_add_ofNat (addr : UInt32) (i : Nat) :
    addr + 1 + UInt32.ofNat i = addr + UInt32.ofNat (i + 1) := by
  rw [UInt32.ofNat_add, UInt32.add_assoc, UInt32.add_comm 1]
  rfl

/-- A byte that no written address names is kept. -/
theorem readByte_writeFrom
    (h : ∀ i < n, m.index (addr + UInt32.ofNat i) ≠ m.index a) :
    (m.writeFrom addr n v).readByte a = m.readByte a := by
  induction n generalizing m addr with
  | zero => rfl
  | succ n ih =>
    have hfirst : m.index addr ≠ m.index a := by simpa using h 0 (by omega)
    rw [writeFrom, ih, readByte_writeByte, if_neg hfirst]
    intro i hi
    rw [index_writeByte, index_writeByte, succ_add_ofNat]
    exact h (i + 1) (by omega)

/-- A read depends on its bytes alone. -/
theorem readFrom_congr {m' : Memory} (acc : UInt64)
    (h : ∀ i < n, m'.readByte (a + UInt32.ofNat i) = m.readByte (a + UInt32.ofNat i)) :
    m'.readFrom a n acc = m.readFrom a n acc := by
  induction n generalizing a acc with
  | zero => rfl
  | succ n ih =>
    have hfirst : m'.readByte a = m.readByte a := by simpa using h 0 (by omega)
    rw [readFrom, readFrom, hfirst]
    refine ih _ fun i hi => ?_
    rw [succ_add_ofNat]
    exact h (i + 1) (by omega)

/-- A store that does not overlap a word keeps it. -/
theorem readWord_write {width : Width} (h : ¬ m.Overlaps (addr, width) a) :
    (m.write addr width v).readWord a = m.readWord a := by
  refine congrArg UInt64.toUInt32 (readFrom_congr 0 fun j hj => readByte_writeFrom fun i hi heq => ?_)
  exact h ⟨i, hi, j, hj, heq⟩

end Memory

end HotRegion.Machine
