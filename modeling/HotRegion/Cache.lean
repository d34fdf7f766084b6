import HotRegion.Ascending
import HotRegion.Compile.Compiled

/-! # Cache of compiled regions

The compiled regions by entry address, at most as many as the capacity, and the entries whose
region cannot be compiled. When a new region does not fit, the one that was not used for the
longest time goes. -/

namespace HotRegion

/-- Compiled regions and failed entries. -/
structure Cache where
  capacity : Nat
  /-- The region used last comes first. -/
  regions : List Compiled
  /-- By ascending entry address. -/
  failed : List (UInt32 × CompileError)

namespace Cache

def new (capacity : Nat) : Cache := ⟨capacity, [], []⟩

/-- The entry addresses of the regions, the one used last first. -/
def entries (c : Cache) : List UInt32 := c.regions.map (·.entry)

def size (c : Cache) : Nat := c.regions.length

def contains (c : Cache) (addr : UInt32) : Bool := c.entries.contains addr

/-- The regions entered elsewhere than at `addr`. -/
def others (c : Cache) (addr : UInt32) : List Compiled := c.regions.filter (·.entry != addr)

/-- Uses the region entered at `addr`. -/
def use? (c : Cache) (addr : UInt32) : Option (Compiled × Cache) :=
  (c.regions.find? (·.entry == addr)).map fun r => (r, { c with regions := r :: c.others addr })

/-- Adds a region in place of one with the same entry, or of the one that was not used for the
longest time if the cache is full. Gives the entry of the latter. -/
def insert (c : Cache) (r : Compiled) : Cache × Option UInt32 :=
  let c := { c with failed := c.failed.filter (·.1 != r.entry) }
  if c.contains r.entry || c.size < c.capacity then
    ({ c with regions := r :: c.others r.entry }, none)
  else
    ({ c with regions := r :: c.regions.dropLast }, (c.regions.getLast?).map (·.entry))

/-- The error with which building the region entered at `addr` failed. -/
def failure? (c : Cache) (addr : UInt32) : Option CompileError := c.failed.lookup addr

def isFailed (c : Cache) (addr : UInt32) : Bool := (c.failure? addr).isSome

/-- Notes that the region entered at `addr` cannot be compiled. -/
def markFailed (c : Cache) (addr : UInt32) (e : CompileError) : Cache :=
  { c with
    regions := c.others addr
    failed := Ascending.put (·.1.toNat) (addr, e) c.failed }

end Cache

end HotRegion
