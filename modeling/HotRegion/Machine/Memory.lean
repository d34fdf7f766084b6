import HotRegion.Machine.ByteTree

/-! # Guest memory

Big-endian memory whose size is a power of two. Addresses wrap around the size, so every access
succeeds; wide accesses go byte by byte, most significant byte first. -/

namespace HotRegion.Machine

/-- Width of a memory access. -/
inductive Width where
  | byte
  | half
  | word
  | double
  deriving DecidableEq, Inhabited

namespace Width

def all : List Width := [byte, half, word, double]

def bytes : Width → Nat
  | byte => 1
  | half => 2
  | word => 4
  | double => 8

def bits (w : Width) : Nat := 8 * w.bytes

instance : ToString Width where
  toString w := s!"i{w.bits}"

end Width

/-- Memory of `size = 2 ^ depth` bytes. -/
structure Memory where
  depth : Nat
  size : Nat
  cells : ByteTree
  depth_le : depth ≤ 32
  size_eq : size = twoPow depth
  normal : cells.Normal depth

/-- Why memory of a given size cannot be made. -/
inductive SizeError where
  | notPowerOfTwo
  | tooLarge
  deriving DecidableEq

def SizeError.message : SizeError → String
  | notPowerOfTwo => "memory size must be a power of two"
  | tooLarge => "memory size exceeds the address space"

namespace Memory

/-- `size` is a power of two. -/
def isPowerOfTwo (size : Nat) : Bool := size == twoPow size.log2

/-- Zeroed memory of `2 ^ depth` bytes. -/
def zeroed (depth : Nat) (h : depth ≤ 32) : Memory where
  depth := depth
  size := twoPow depth
  cells := .zero
  depth_le := h
  size_eq := rfl
  normal := by simp [ByteTree.Normal]

/-- Zeroed memory of `size` bytes. -/
def new (size : Nat) : Except SizeError Memory :=
  if !isPowerOfTwo size then .error .notPowerOfTwo
  else if h : size.log2 ≤ 32 then .ok (zeroed size.log2 h)
  else .error .tooLarge

/-- The byte index that an address names. -/
def index (m : Memory) (addr : UInt32) : Nat := addr.toNat % m.size

def readByte (m : Memory) (addr : UInt32) : UInt8 := m.cells.get (m.index addr)

def writeByte (m : Memory) (addr : UInt32) (b : UInt8) : Memory :=
  { m with
    cells := m.cells.set m.depth (m.index addr) b
    normal := m.normal.set _ _ }

/-- The `n` bytes from `addr` on, appended to the digits `acc` in base 256. -/
def readFrom (m : Memory) (addr : UInt32) : Nat → UInt64 → UInt64
  | 0, acc => acc
  | n + 1, acc => m.readFrom (addr + 1) n (acc <<< 8 ||| (m.readByte addr).toUInt64)

/-- The value of the access of width `width` at `addr`. -/
def read (m : Memory) (addr : UInt32) (width : Width) : UInt64 := m.readFrom addr width.bytes 0

/-- Stores the low `n` bytes of `v` from `addr` on. -/
def writeFrom (m : Memory) (addr : UInt32) : Nat → UInt64 → Memory
  | 0, _ => m
  | n + 1, v => (m.writeByte addr (v >>> UInt64.ofNat (8 * n)).toUInt8).writeFrom (addr + 1) n v

/-- Stores the low bits of `v` at `addr`. -/
def write (m : Memory) (addr : UInt32) (width : Width) (v : UInt64) : Memory :=
  m.writeFrom addr width.bytes v

/-- The word at `addr`. -/
def readWord (m : Memory) (addr : UInt32) : UInt32 := (m.read addr .word).toUInt32

/-- Stores the word `v` at `addr`. -/
def writeWord (m : Memory) (addr v : UInt32) : Memory := m.write addr .word v.toUInt64

/-- Copies bytes into memory from `base` on. -/
def loadBytes (m : Memory) (base : UInt32) : List UInt8 → Memory
  | [] => m
  | b :: rest => (m.writeByte base b).loadBytes (base + 1) rest

/-- Stores consecutive words from `base` on. -/
def loadWords (m : Memory) (base : UInt32) : List UInt32 → Memory
  | [] => m
  | w :: rest => (m.writeWord base w).loadWords (base + 4) rest

/-- The aligned words of `m` that differ from those of `before`, with their addresses, ascending.
Only words with a byte that is not zero on one side can differ. -/
def changedWords (before m : Memory) : List (UInt32 × UInt32) :=
  let words := (before.cells.support ++ m.cells.support).map (· / 4)
  (words.mergeSort (· ≤ ·)).eraseReps.filterMap fun i =>
    let addr := UInt32.ofNat (4 * i)
    let v := m.readWord addr
    if before.readWord addr = v then none else some (addr, v)

/-- One-line summary: the size and how many bytes are not zero. -/
def summary (m : Memory) : String :=
  s!"Memory \x7b size: {m.size}, nonzero_bytes: {m.cells.count} \x7d"

/-! ### Bytes after writes -/

/-- Memory is not empty. -/
theorem size_pos (m : Memory) : 0 < m.size := by
  rw [m.size_eq]
  exact twoPow_pos _

/-- Addresses wrap into the memory. -/
theorem index_lt (m : Memory) (addr : UInt32) : m.index addr < twoPow m.depth := by
  rw [← m.size_eq]
  exact Nat.mod_lt _ m.size_pos

@[simp] theorem size_writeByte (m : Memory) (addr : UInt32) (b : UInt8) :
    (m.writeByte addr b).size = m.size := rfl

@[simp] theorem index_writeByte (m : Memory) (addr a : UInt32) (b : UInt8) :
    (m.writeByte addr b).index a = m.index a := rfl

/-- A written byte reads back at every address of the same index, the others are kept. -/
theorem readByte_writeByte (m : Memory) (addr a : UInt32) (b : UInt8) :
    (m.writeByte addr b).readByte a = if m.index addr = m.index a then b else m.readByte a :=
  ByteTree.get_set m.normal b (m.index_lt addr) (m.index_lt a)

end Memory

end HotRegion.Machine
