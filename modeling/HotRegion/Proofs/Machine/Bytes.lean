import HotRegion.Proofs.Machine.Stores
import Mathlib.Order.Bounds.Basic

/-!
# Memory as an array of bytes

Memory is an array of `size` bytes around which addresses wrap. Every way to fill it stores bytes one
after the other, so a list of bytes stands behind each: where two of them meet at one index the later
one stays. A wide access is the list of its bytes, the most significant first.

## Key results

- `ext_bytes`: memories with the same bytes are equal
- `byteAt_loadBytes`, `byteAt_loadBytes_of_ne`: the array after a list of bytes is stored
- `writeFrom_eq`, `toNat_read`: accesses as lists of bytes
- `write_wraps`: what a write does to the array and to later reads
-/

namespace HotRegion.Machine.Memory

variable {m m' : Memory} {addr a : UInt32} {v : UInt64} {i j k n : Nat}

/-! ## The array -/

/-- The byte at an index. -/
def byteAt (m : Memory) (j : Nat) : UInt8 := m.cells.get j

/-- Memories of one size with the same bytes are equal. -/
theorem ext_bytes (hsize : m'.size = m.size) (h : ∀ j < m.size, m'.byteAt j = m.byteAt j) :
    m' = m := by
  obtain ⟨depth, size, cells, hle, rfl, hnormal⟩ := m
  obtain ⟨depth', size', cells', hle', rfl, hnormal'⟩ := m'
  have hdepth : depth' = depth := Nat.pow_right_injective (Nat.le_refl 2) hsize
  subst hdepth
  have hcells : cells' = cells := hnormal'.ext hnormal h
  subst hcells
  rfl

/-- Addresses wrap around the size also where they wrap around the address space. -/
theorem size_dvd (m : Memory) : m.size ∣ 0x100000000 := by
  rw [m.size_eq]
  exact twoPow_dvd m.depth_le

/-- Places in memory follow one another, and wrap at the size. -/
theorem index_add (m : Memory) (addr : UInt32) (i : Nat) :
    m.index (addr + UInt32.ofNat i) = (addr.toNat + i) % m.size := by
  rw [index, UInt32.toNat_add, UInt32.toNat_ofNat', Nat.mod_mod_of_dvd _ m.size_dvd, Nat.add_mod,
    Nat.mod_mod_of_dvd _ m.size_dvd, ← Nat.add_mod]

/-- The index of an address is cut out of it by a mask. -/
theorem index_eq_and (m : Memory) (addr : UInt32) :
    m.index addr = (addr &&& UInt32.ofNat (m.size - 1)).toNat := by
  have hsize : m.size = 2 ^ m.depth := m.size_eq
  have hlt : m.size - 1 < 2 ^ 32 := by
    have := Nat.le_of_dvd (by decide) m.size_dvd
    have := m.size_pos
    omega
  rw [index, UInt32.toNat_and, UInt32.toNat_ofNat_of_lt' hlt, hsize,
    Nat.and_two_pow_sub_one_eq_mod]

/-- A written byte is read back at its place, and the others stay. -/
theorem byteAt_writeByte (m : Memory) (addr : UInt32) (x : UInt8) (hj : j < m.size) :
    (m.writeByte addr x).byteAt j = if addr.toNat % m.size = j then x else m.byteAt j :=
  ByteTree.get_set m.normal x (m.index_lt addr) (m.size_eq ▸ hj)

/-- Memory can be made of any power of two of bytes that fits the address space, and is zero then. -/
theorem new_eq_ok_iff {size : Nat} :
    Memory.new size = .ok m ↔ m.size = size ∧ ∀ j < m.size, m.byteAt j = 0 := by
  unfold new
  constructor
  · intro h
    split at h
    · cases h
    · rename_i hpow
      split at h
      · cases h
        have hsize : isPowerOfTwo size = true := by simpa using hpow
        exact ⟨(beq_iff_eq.1 hsize).symm, fun j _ => ByteTree.get_zero j⟩
      · cases h
  -- A size is a power of two by its type, so the check finds nothing wrong.
  · rintro ⟨rfl, hzero⟩
    have hlog : m.size.log2 = m.depth := by
      rw [m.size_eq]
      exact Nat.log2_two_pow
    have hpow : isPowerOfTwo m.size = true := by
      rw [isPowerOfTwo, hlog, beq_iff_eq, m.size_eq]
    have hle : m.size.log2 ≤ 32 := hlog ▸ m.depth_le
    have hsize : (zeroed m.size.log2 hle).size = m.size :=
      (congrArg twoPow hlog).trans m.size_eq.symm
    rw [hpow, Bool.not_true, if_neg (by decide), dif_pos hle]
    refine congrArg Except.ok (ext_bytes hsize fun j hj => ?_)
    rw [hzero j hj]
    exact ByteTree.get_zero j

/-! ## Bytes in a row -/

/-- Loading bytes does not change the size. -/
theorem size_loadBytes (m : Memory) (addr : UInt32) (bs : List UInt8) :
    (m.loadBytes addr bs).size = m.size := by
  induction bs generalizing m addr with
  | nil => rfl
  | cons x bs ih => rw [loadBytes, ih, size_writeByte]

/-- Bytes may be loaded in two parts. -/
theorem loadBytes_append (m : Memory) (addr : UInt32) (bs cs : List UInt8) :
    m.loadBytes addr (bs ++ cs) =
      (m.loadBytes addr bs).loadBytes (addr + UInt32.ofNat bs.length) cs := by
  induction bs generalizing m addr with
  | nil => simp [loadBytes]
  | cons x bs ih =>
    rw [List.cons_append, loadBytes, ih, loadBytes, List.length_cons, succ_add_ofNat]

/-- The next address is the next offset. -/
theorem succ_add_mod (m : Memory) (addr : UInt32) (i : Nat) :
    ((addr + 1).toNat + i) % m.size = (addr.toNat + (i + 1)) % m.size := by
  rw [← index_add, ← index_add, succ_add_ofNat]

/-- Bytes at other indices are kept. -/
theorem byteAt_loadBytes_of_ne (m : Memory) (addr : UInt32) (bs : List UInt8) (hj : j < m.size)
    (h : ∀ i < bs.length, (addr.toNat + i) % m.size ≠ j) :
    (m.loadBytes addr bs).byteAt j = m.byteAt j := by
  induction bs generalizing m addr with
  | nil => rfl
  | cons x bs ih =>
    have hfirst : addr.toNat % m.size ≠ j := h 0 (by simp)
    have hrest := ih (m.writeByte addr x) (addr + 1) hj fun i hi => by
      rw [size_writeByte, succ_add_mod]
      exact h (i + 1) (by simpa using hi)
    rw [loadBytes, hrest, byteAt_writeByte _ _ _ hj, if_neg hfirst]

/-- The last of the bytes for an index stays there. -/
theorem byteAt_loadBytes (m : Memory) (addr : UInt32) (bs : List UInt8) (hi : i < bs.length)
    (hlast : ∀ k < bs.length, i < k →
      (addr.toNat + k) % m.size ≠ (addr.toNat + i) % m.size) :
    (m.loadBytes addr bs).byteAt ((addr.toNat + i) % m.size) = bs[i] := by
  induction bs generalizing m addr i with
  | nil => cases hi
  | cons x bs ih =>
    have hlt : addr.toNat % m.size < m.size := Nat.mod_lt _ m.size_pos
    rw [loadBytes]
    cases i with
    | zero =>
      have hkept := byteAt_loadBytes_of_ne (m.writeByte addr x) (addr + 1) bs hlt fun k hk => by
        rw [size_writeByte, succ_add_mod]
        exact hlast (k + 1) (by simpa using hk) (by omega)
      exact hkept.trans ((byteAt_writeByte m addr x hlt).trans (if_pos rfl))
    | succ i =>
      have hrest := ih (m.writeByte addr x) (addr + 1) (by simpa using hi) fun k hk hik => by
        rw [size_writeByte, succ_add_mod, succ_add_mod]
        exact hlast (k + 1) (by simpa using hk) (by omega)
      rwa [size_writeByte, succ_add_mod] at hrest

/-- Offsets that differ by less than the size have different indices. -/
theorem add_mod_ne (hik : i < k) (hki : k < i + n) (x : Nat) : (x + k) % n ≠ (x + i) % n := by
  intro h
  have hdvd : n ∣ (x + k) - (x + i) := Nat.dvd_of_mod_eq_zero (Nat.sub_mod_eq_zero_of_mod_eq h)
  rw [Nat.add_sub_add_left] at hdvd
  have := Nat.le_of_dvd (by omega) hdvd
  omega

/-! ## Accesses as lists of bytes -/

/-- The low `n` bytes of a value, the most significant first. -/
def bigEndian : Nat → UInt64 → List UInt8
  | 0, _ => []
  | n + 1, v => (v >>> UInt64.ofNat (8 * n)).toUInt8 :: bigEndian n v

/-- A number in big-endian order has the bytes that it is asked for. -/
@[simp] theorem length_bigEndian (n : Nat) (v : UInt64) : (bigEndian n v).length = n := by
  induction n with
  | zero => rfl
  | succ n ih => rw [bigEndian, List.length_cons, ih]

/-- The bytes of a number come from the highest to the lowest. -/
theorem getElem_bigEndian (h : i < (bigEndian n v).length) :
    (bigEndian n v)[i] = (v >>> UInt64.ofNat (8 * (n - 1 - i))).toUInt8 := by
  induction n generalizing i with
  | zero => cases h
  | succ n ih =>
    cases i with
    | zero => rfl
    | succ i =>
      have hi : i < n := by simpa using h
      have hoffset : n + 1 - 1 - (i + 1) = n - 1 - i := by omega
      rw [hoffset]
      exact ih (by simpa using hi)

/-- A store writes the bytes of the value in big-endian order. -/
theorem writeFrom_eq (m : Memory) (addr : UInt32) (n : Nat) (v : UInt64) :
    m.writeFrom addr n v = m.loadBytes addr (bigEndian n v) := by
  induction n generalizing m addr with
  | zero => rfl
  | succ n ih => rw [writeFrom, ih, bigEndian, loadBytes]

/-- The bytes from an address on. -/
def bytesFrom (m : Memory) (addr : UInt32) : Nat → List UInt8
  | 0 => []
  | n + 1 => m.readByte addr :: m.bytesFrom (addr + 1) n

/-- A read has the bytes that it is asked for. -/
@[simp] theorem length_bytesFrom (m : Memory) (addr : UInt32) (n : Nat) :
    (m.bytesFrom addr n).length = n := by
  induction n generalizing addr with
  | zero => rfl
  | succ n ih => rw [bytesFrom, List.length_cons, ih]

/-- The bytes of a read follow one another, and wrap at the size. -/
theorem getElem_bytesFrom (h : i < (m.bytesFrom addr n).length) :
    (m.bytesFrom addr n)[i] = m.byteAt ((addr.toNat + i) % m.size) := by
  induction n generalizing addr i with
  | zero => cases h
  | succ n ih =>
    cases i with
    | zero => rfl
    | succ i =>
      rw [← succ_add_mod]
      exact ih (by simpa [bytesFrom] using h)

/-- A read may be taken in two parts. -/
theorem bytesFrom_add (m : Memory) (addr : UInt32) (n k : Nat) :
    m.bytesFrom addr (n + k) =
      m.bytesFrom addr n ++ m.bytesFrom (addr + UInt32.ofNat n) k := by
  induction n generalizing addr with
  | zero => simp [bytesFrom]
  | succ n ih =>
    rw [Nat.succ_add, bytesFrom, ih, bytesFrom, List.cons_append, succ_add_ofNat]

/-- Bytes that no offset names twice read back. -/
theorem bytesFrom_loadBytes (m : Memory) (addr : UInt32) (bs : List UInt8)
    (hlen : bs.length ≤ m.size) (h : a.toNat % m.size = (addr.toNat + i) % m.size)
    (hin : i + n ≤ bs.length) :
    (m.loadBytes addr bs).bytesFrom a n = (bs.drop i).take n := by
  refine List.ext_getElem (by simp; omega) fun j hj _ => ?_
  have hj : j < n := by simpa using hj
  have hindex : (a.toNat + j) % m.size = (addr.toNat + (i + j)) % m.size := by
    rw [Nat.add_mod, h, ← Nat.add_mod, Nat.add_assoc]
  rw [getElem_bytesFrom, size_loadBytes, hindex,
    byteAt_loadBytes m addr bs (by omega) fun k hk hik => add_mod_ne hik (by omega) _]
  simp

/-! ## Values -/

/-- The number that bytes write in base 256. -/
def value : List UInt8 → Nat
  | [] => 0
  | x :: bs => x.toNat * twoPow (8 * bs.length) + value bs

/-- One more byte is a factor of 256. -/
theorem twoPow_bytes_succ (n : Nat) : twoPow (8 * (n + 1)) = 256 * twoPow (8 * n) := by
  rw [Nat.mul_succ, Nat.add_comm, twoPow_add]
  rfl

/-- The value of bytes in big-endian order: the first ones weigh more. -/
theorem value_append (bs cs : List UInt8) :
    value (bs ++ cs) = value bs * twoPow (8 * cs.length) + value cs := by
  induction bs with
  | nil => simp [value]
  | cons x bs ih =>
    rw [List.cons_append, value, value, ih, List.length_append, Nat.mul_add, twoPow_add,
      Nat.add_mul, Nat.mul_assoc, Nat.add_assoc]

/-- A byte of a value is a digit of its number. -/
theorem toNat_byte (v : UInt64) (hk : k < 8) :
    (v >>> UInt64.ofNat (8 * k)).toUInt8.toNat = v.toNat / twoPow (8 * k) % 256 := by
  have hamount : 8 * k % 0x10000000000000000 % 64 = 8 * k := by omega
  rw [UInt64.toNat_toUInt8, UInt64.toNat_shiftRight, UInt64.toNat_ofNat', hamount,
    Nat.shiftRight_eq_div_pow]
  rfl

/-- The low bytes of a value write what is left of it when it is truncated. -/
theorem value_bigEndian (v : UInt64) (hn : n ≤ 8) :
    value (bigEndian n v) = v.toNat % twoPow (8 * n) := by
  induction n with
  | zero => exact (Nat.mod_one _).symm
  | succ n ih =>
    rw [bigEndian, value, length_bigEndian, ih (by omega), toNat_byte v (by omega),
      twoPow_bytes_succ, Nat.mul_comm 256, Nat.mod_mul, Nat.mul_comm, Nat.add_comm]

/-- Taking in one more byte. -/
theorem toNat_push (acc : UInt64) (x : UInt8) (h : acc.toNat < 0x100000000000000) :
    (acc <<< 8 ||| x.toUInt64).toNat = acc.toNat * 256 + x.toNat := by
  have hshift : (acc <<< 8).toNat = acc.toNat <<< 8 := by
    rw [UInt64.toNat_shiftLeft]
    change acc.toNat <<< 8 % 2 ^ 64 = _
    rw [Nat.shiftLeft_eq]
    omega
  rw [UInt64.toNat_or, hshift, UInt8.toNat_toUInt64, ← Nat.shiftLeft_add_eq_or_of_lt x.toNat_lt,
    Nat.shiftLeft_eq]

/-- A load gives the value of the bytes that it reads, after those before. -/
theorem toNat_readFrom (m : Memory) (addr : UInt32) (n : Nat) (acc : UInt64)
    (h : (acc.toNat + 1) * twoPow (8 * n) ≤ 0x10000000000000000) :
    (m.readFrom addr n acc).toNat =
      acc.toNat * twoPow (8 * n) + value (m.bytesFrom addr n) := by
  induction n generalizing addr acc with
  | zero => simp [readFrom, bytesFrom, value, twoPow_zero]
  | succ n ih =>
    have hpos := twoPow_pos (8 * n)
    rw [twoPow_bytes_succ, ← Nat.mul_assoc] at h
    have hacc : (acc.toNat + 1) * 256 ≤ 0x10000000000000000 :=
      Nat.le_trans (Nat.le_mul_of_pos_right _ hpos) h
    have hpush := toNat_push acc (m.readByte addr) (by omega)
    have hx := (m.readByte addr).toNat_lt
    rw [readFrom, ih, hpush, bytesFrom, value, length_bytesFrom, twoPow_bytes_succ, Nat.add_mul,
      Nat.mul_assoc, Nat.add_assoc]
    rw [hpush]
    exact Nat.le_trans (Nat.mul_le_mul_right _ (by omega)) h

/-- A read gives the number that the bytes write. -/
theorem toNat_read (m : Memory) (addr : UInt32) (w : Width) :
    (m.read addr w).toNat = value (m.bytesFrom addr w.bytes) := by
  have hwidth : twoPow (8 * w.bytes) ≤ 0x10000000000000000 := by cases w <;> decide
  have := toNat_readFrom m addr w.bytes 0 (by simpa using hwidth)
  simpa [read] using this

/-- A read that spans two is their values one after the other, the high part first. -/
theorem toNat_read_append {w w₁ w₂ : Width} (h : w.bytes = w₁.bytes + w₂.bytes) (m : Memory)
    (addr : UInt32) : (m.read addr w).toNat = (m.read addr w₁).toNat * twoPow w₂.bits +
      (m.read (addr + UInt32.ofNat w₁.bytes) w₂).toNat := by
  rw [toNat_read, toNat_read, toNat_read, h, bytesFrom_add, value_append, length_bytesFrom,
    Width.bits]

/-! ## Writes -/

/-- The bytes that a write leaves at the addresses that it is for. -/
theorem bytesFrom_write (m : Memory) (addr : UInt32) (w : Width) (v : UInt64)
    (hsize : w.bytes ≤ m.size) (h : a.toNat % m.size = addr.toNat % m.size) :
    (m.write addr w v).bytesFrom a w.bytes = bigEndian w.bytes v := by
  have hback := bytesFrom_loadBytes (a := a) (i := 0) (n := w.bytes) m addr (bigEndian w.bytes v)
    (by simpa using hsize) h (by simp)
  rwa [List.drop_zero, List.take_of_length_le (by simp), ← writeFrom_eq] at hback

/-- Memory is an array of bytes that wraps around.

After a write, the byte at an index is the byte of the value, the most significant first, for the
greatest offset whose address has this index, and is kept if no address of the write has it. So if the
array is at least as long as the access, the value reads back, truncated to the width, at every address
that is the same modulo the size, and an access that has no index in common with the write reads as
before. A read of twice a width is the two reads of that width one after the other, the high part
first. The index of an address lies within the array, also where the address wraps around, and is what
the mask leaves of it. -/
theorem write_wraps (m : Memory) (addr : UInt32) (w : Width) (v : UInt64) :
    (∀ i j, IsGreatest {i | i < w.bytes ∧ (addr.toNat + i) % m.size = j} i →
      (m.write addr w v).byteAt j = (v >>> UInt64.ofNat (8 * (w.bytes - 1 - i))).toUInt8) ∧
    (∀ j < m.size, (∀ i < w.bytes, (addr.toNat + i) % m.size ≠ j) →
      (m.write addr w v).byteAt j = m.byteAt j) ∧
    (w.bytes ≤ m.size → ∀ a : UInt32, a.toNat % m.size = addr.toNat % m.size →
      ((m.write addr w v).read a w).toNat = v.toNat % twoPow w.bits) ∧
    (∀ (a : UInt32) (w' : Width), (∀ i < w.bytes, ∀ j < w'.bytes,
        (addr.toNat + i) % m.size ≠ (a.toNat + j) % m.size) →
      (m.write addr w v).read a w' = m.read a w') ∧
    (∀ (a : UInt32) (w₁ w₂ : Width), w₂.bytes = 2 * w₁.bytes → (m.read a w₂).toNat =
      (m.read a w₁).toNat * twoPow w₁.bits + (m.read (a + UInt32.ofNat w₁.bytes) w₁).toNat) ∧
    ∀ (a : UInt32) (i : Nat), m.index (a + UInt32.ofNat i) = (a.toNat + i) % m.size ∧
      m.index a = (a &&& UInt32.ofNat (m.size - 1)).toNat ∧ m.index a < m.size := by
  have hwrite : m.write addr w v = m.loadBytes addr (bigEndian w.bytes v) := writeFrom_eq ..
  refine ⟨?_, fun j hj hmiss => ?_, fun hsize a ha => ?_, fun a w' hmiss => ?_,
    fun a w₁ w₂ h => toNat_read_append (h.trans (Nat.two_mul _)) m a, fun a i =>
    ⟨index_add m a i, index_eq_and m a, Nat.mod_lt _ m.size_pos⟩⟩
  · rintro i _ ⟨⟨hi, rfl⟩, hgreatest⟩
    have hbyte := byteAt_loadBytes m addr (bigEndian w.bytes v) (i := i) (by simpa using hi)
      fun k hk hik heq => by
        have := hgreatest ⟨by simpa using hk, heq⟩
        omega
    rw [hwrite, hbyte, getElem_bigEndian]
  · rw [hwrite]
    exact byteAt_loadBytes_of_ne m addr _ hj (by simpa using hmiss)
  · have hbytes : w.bytes ≤ 8 := by cases w <;> decide
    rw [toNat_read, bytesFrom_write m addr w v hsize ha, value_bigEndian v hbytes, Width.bits]
  · refine readFrom_congr 0 fun j hj => readByte_writeFrom fun i hi => ?_
    rw [index_add, index_add]
    exact hmiss i hi j hj

/-- Eight bytes into memory of four: the last four of them stay. A word that is written across the top
reads back below it. -/
theorem write_wraps_twice_around : ∃ m, Memory.new 4 = .ok m ∧
    (m.write 0xfffffffe .double 0x1122334455667788).byteAt 2 = 0x55 ∧
    ((m.write 0xfffffffe .word 0x1122334455667788).read 2 .word).toNat = 0x55667788 := by
  obtain ⟨m, hm⟩ : ∃ m, Memory.new 4 = .ok m := ⟨_, rfl⟩
  have hsize : m.size = 4 := (new_eq_ok_iff.1 hm).1
  refine ⟨m, hm, ?_, ?_⟩
  · have hlast := (write_wraps m 0xfffffffe .double 0x1122334455667788).1 4 2
    rw [hsize] at hlast
    refine hlast ⟨by decide, ?_⟩
    rintro i ⟨hi, hindex⟩
    change i < 8 at hi
    change (0xfffffffe + i) % 4 = 2 at hindex
    omega
  · have hback := (write_wraps m 0xfffffffe .word 0x1122334455667788).2.2.1
    rw [hsize] at hback
    exact hback (by decide) 2 (by decide)

end HotRegion.Machine.Memory
