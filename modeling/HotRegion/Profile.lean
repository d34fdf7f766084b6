import HotRegion.Ascending
import HotRegion.Machine.Trace
import Std.Data.TreeMap

/-! # Execution profile

What interpretation has shown so far: how often each dynamic block ran, its latest trace and where
control went next. `Profile.discover` collects the blocks of a region around an entry. -/

namespace HotRegion

open Machine

/-- What is known of the dynamic block at one address. -/
structure BlockRecord where
  /-- How often the block ran. -/
  count : Nat
  /-- The latest trace. -/
  trace : Trace
  /-- Where control continued, ascending. -/
  next : List UInt32

/-- The blocks seen so far, by entry address. -/
structure Profile where
  records : Std.TreeMap UInt32 BlockRecord

namespace Profile

def empty : Profile := ⟨∅⟩

/-- The latest trace of the block at `addr`. -/
def trace? (p : Profile) (addr : UInt32) : Option Trace := (p.records[addr]?).map (·.trace)

/-- How often the block at `addr` ran. -/
def count (p : Profile) (addr : UInt32) : Nat :=
  match p.records[addr]? with
  | some r => r.count
  | none => 0

/-- The addresses at which control was seen to continue after the block at `addr`, ascending. -/
def successors (p : Profile) (addr : UInt32) : List UInt32 :=
  match p.records[addr]? with
  | some r => r.next
  | none => []

/-- Records that a block ran and that control went on at `next`. -/
def record (p : Profile) (trace : Trace) (next : UInt32) : Profile :=
  ⟨p.records.insert trace.entry
    { count := p.count trace.entry + 1
      trace := trace
      next := Ascending.insert UInt32.toNat next (p.successors trace.entry) }⟩

/-- Where a block may go on: the transitions seen, and its static targets or the next address. -/
def candidates (p : Profile) (t : Trace) : List UInt32 :=
  let known := match t.transfer with
    | some (_, control) => control.targets
    | none => [t.exitAddr + 4]
  Ascending.union UInt32.toNat (p.successors t.entry) known

/-- Goes through candidate addresses and adds those that have a trace and are new. Gives the traces
found, the new ones last, or stops at once when there are `limit` of them. -/
def extend (p : Profile) (limit : Nat) : List UInt32 → List Trace → List Trace × Bool
  | [], found => (found, false)
  | addr :: rest, found =>
    if limit ≤ found.length then (found, true)
    else
      match p.trace? addr with
      | some t =>
        if found.any (·.entry == addr) then p.extend limit rest found
        else p.extend limit rest (found ++ [t])
      | none => p.extend limit rest found

/-- Visits the traces from position `i` on in the order they were found, at most `fuel` of them. -/
def visit (p : Profile) (limit : Nat) : Nat → Nat → List Trace → List Trace
  | 0, _, found => found
  | fuel + 1, i, found =>
    match found[i]? with
    | none => found
    | some t =>
      match p.extend limit (p.candidates t) found with
      | (found, true) => found
      | (found, false) => p.visit limit fuel (i + 1) found

/-- The traces of a region entered at `entry`: a breadth-first walk over the blocks that control was
seen to reach or may reach, bounded by `limit`. Each recorded block is visited at most once. -/
def discover (p : Profile) (entry : UInt32) (limit : Nat) : Option (List Trace) :=
  (p.trace? entry).map fun t => p.visit limit (p.records.size + 1) 0 [t]

end Profile

end HotRegion
