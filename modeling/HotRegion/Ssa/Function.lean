import HotRegion.Ssa.Inst
import HotRegion.Ssa.Terminator
import HotRegion.Text.Blank

/-! # Functions

A function is the code of one region: a graph of blocks entered at its first block and left only by
exits. Every value is defined by one instruction. -/

namespace HotRegion.Ssa

/-- A block: phis, other instructions and a terminator. -/
structure Block where
  name : String
  /-- Comment on the whole block, shown above it. -/
  comment : Option String := none
  insts : Array Inst := #[]
  /-- Positions and comments, ascending. A comment is shown before the instruction at its position,
  or before the terminator. -/
  comments : Array (Nat × String) := #[]
  terminator : Option Terminator := none
  deriving Inhabited

namespace Block

/-- The leading phis. -/
def phis (b : Block) : List Inst := b.insts.toList.takeWhile Inst.isPhi

/-- The instructions after the phis. -/
def body (b : Block) : List Inst := b.insts.toList.dropWhile Inst.isPhi

def successors (b : Block) : List BlockId :=
  match b.terminator with
  | some t => t.successors
  | none => []

end Block

/-- The code of a region. The first block is the entry. -/
structure Function where
  name : String
  blocks : Array Block
  types : Array Ty
  deriving Inhabited

namespace Function

def entry : BlockId := ⟨0⟩

def block? (f : Function) (b : BlockId) : Option Block := f.blocks[b.index]?

/-- The type of a value. Whoever asks has made sure that the value has one: the builder looks it up
itself, and validation asks only for values that it has seen defined. -/
def ty (f : Function) (v : Value) : Ty := f.types.getD v.index .i32

def blockIds (f : Function) : List BlockId := (List.range f.blocks.size).map BlockId.mk

/-- The number of instructions, terminators included. -/
def instructionCount (f : Function) : Nat :=
  f.blocks.foldl (fun n b => n + b.insts.size + 1) 0

/-- The distinct predecessors of a block in ascending order. -/
def predecessors (f : Function) (b : BlockId) : List BlockId :=
  f.blockIds.filter fun p =>
    match f.block? p with
    | some block => block.successors.contains b
    | none => false

/-! ### Text -/

/-- An instruction with the value it defines and that value's type. -/
def instText (f : Function) (i : Inst) : String :=
  match i.dst? with
  | some dst => s!"{dst}:{f.ty dst} = {i.text}"
  | none => i.text

private def commentLine (comment : String) : String := s!"    ; {comment}\n"

/-- The lines of the instructions from position `i` on, each after the comments at its position;
the comments left over come last. -/
def bodyText (f : Function) (i : Nat) : List Inst → List (Nat × String) → String
  | [], comments => String.join (comments.map fun c => commentLine c.2)
  | inst :: rest, comments =>
    let here := comments.takeWhile (·.1 == i)
    String.join (here.map fun c => commentLine c.2) ++ s!"    {f.instText inst}\n" ++
      f.bodyText (i + 1) rest (comments.drop here.length)

def blockText (f : Function) (id : BlockId) (b : Block) : String :=
  let above := match b.comment with
    | some c => (Text.lines c.toList).map fun l => ";" ++ String.ofList l ++ "\n"
    | none => []
  let label := if b.name.isEmpty then s!"{id}:\n" else s!"{id}: ; {b.name}\n"
  let last := match b.terminator with
    | some t => t.text
    | none => "<unterminated>"
  String.join above ++ label ++ f.bodyText 0 b.insts.toList b.comments.toList ++ s!"    {last}\n"

def text (f : Function) : String :=
  s!"region {f.name} \x7b\n" ++
    String.join (f.blocks.toList.zipIdx.map fun (b, i) => f.blockText ⟨i⟩ b) ++ "\x7d\n"

instance : ToString Function := ⟨text⟩

end Function

end HotRegion.Ssa
