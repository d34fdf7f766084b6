import HotRegion.Ssa.Function
import Std.Data.TreeMap

/-! # Building functions

A `Builder` makes a function step by step. Instructions go to the end of the current block, before
its terminator if it has one; a phi goes after the phis of the current block, and the comments of
the block move with the instructions they stand before.

Most steps cannot fail. A step that looks up a block or a value by its number fails when the
function does not have it. -/

namespace HotRegion.Ssa

open Machine (Loc Width)

/-- A function under construction. -/
structure Builder where
  function : Function
  current : BlockId
  /-- The block and the position of every phi. -/
  phiSites : Std.TreeMap Nat (BlockId × Nat)

/-- A computation that builds a function and cannot fail. -/
abbrev Build := StateM Builder

/-- A step that names what the function does not have. -/
inductive Misuse where
  /-- Starting a block that is not declared. -/
  | undeclared (block : BlockId)
  /-- A block or a value with a number from the given count on. -/
  | outOfBounds (index count : Nat)
  /-- An incoming value for a value that is no phi. -/
  | notPhi (v : Value)
  deriving DecidableEq

def Misuse.message : Misuse → String
  | undeclared _ => "assertion failed: block.index() < self.function.blocks.len()"
  | outOfBounds index count => s!"index out of bounds: the len is {count} but the index is {index}"
  | notPhi _ => "no entry found for key"

/-- A computation that builds a function and may fail. -/
abbrev Attempt := StateT Builder (Except Misuse)

instance : MonadLift Build Attempt where
  monadLift x := fun b => .ok (x b)

namespace Builder

/-- A function with an empty entry block, which is the current block. -/
def new (name : String) : Builder where
  function := ⟨name, #[⟨"entry", none, #[], #[], none⟩], #[]⟩
  current := Function.entry
  phiSites := ∅

/-- The current block has a terminator. -/
def isTerminated (b : Builder) : Bool :=
  match b.function.block? b.current with
  | some block => block.terminator.isSome
  | none => false

/-- The incoming values of a phi so far. -/
def incoming (b : Builder) (phi : Value) : List (BlockId × Value) :=
  match b.phiSites[phi.index]? with
  | some (block, i) =>
    match (b.function.block? block).bind (·.insts[i]?) with
    | some (.phi _ incoming) => incoming
    | _ => []
  | none => []

end Builder

/-! ### Changes of a block -/

namespace Block

/-- The block with an instruction put in at position `i`, with the comments from there on moved. -/
def insertAt (i : Nat) (inst : Inst) (b : Block) : Block :=
  { b with
    insts := (b.insts.toList.take i ++ inst :: b.insts.toList.drop i).toArray
    comments := b.comments.map fun (j, text) => (if i ≤ j then j + 1 else j, text) }

/-- Adds an incoming value to the phi at a position of a block. -/
def extendPhi (i : Nat) (pred : BlockId) (value : Value) (b : Block) : Block :=
  { b with insts := b.insts.modify i fun
      | .phi dst incoming => .phi dst (incoming ++ [(pred, value)])
      | inst => inst }

end Block

namespace Build

/-! ### Blocks -/

/-- Adds an empty block. -/
def declareBlock (name : String) : Build BlockId := fun b =>
  (⟨b.function.blocks.size⟩,
    { b with function.blocks := b.function.blocks.push ⟨name, none, #[], #[], none⟩ })

/-- Makes a block the current one. -/
def switchTo (block : BlockId) : Attempt Unit := fun b =>
  if block.index < b.function.blocks.size then .ok ((), { b with current := block })
  else .error (.undeclared block)

/-- Changes a block. -/
def modifyBlock (block : BlockId) (f : Block → Block) : Build Unit := modify fun b =>
  { b with function.blocks := b.function.blocks.modify block.index f }

/-- Changes the current block. -/
def modifyCurrent (f : Block → Block) : Build Unit := do
  modifyBlock (← get).current f

/-- Puts a comment on a block. -/
def setBlockComment (block : BlockId) (comment : Option String) : Attempt Unit := fun b =>
  if block.index < b.function.blocks.size then
    .ok (modifyBlock block (fun blk => { blk with comment := comment }) b)
  else .error (.outOfBounds block.index b.function.blocks.size)

/-- Puts a comment before the next instruction of the current block. -/
def comment (text : String) : Build Unit :=
  modifyCurrent fun b => { b with comments := b.comments.push (b.insts.size, text) }

/-! ### Instructions -/

/-- The type of a value. -/
def ty (v : Value) : Attempt Ty := fun b =>
  match b.function.types[v.index]? with
  | some ty => .ok (ty, b)
  | none => .error (.outOfBounds v.index b.function.types.size)

/-- A new value of the given type. -/
def newValue (ty : Ty) : Build Value := fun b =>
  (⟨b.function.types.size⟩, { b with function.types := b.function.types.push ty })

def push (inst : Inst) : Build Unit :=
  modifyCurrent fun b => { b with insts := b.insts.push inst }

/-- Adds the instruction that defines a new value of the given type. -/
def define (ty : Ty) (inst : Value → Inst) : Build Value := do
  let dst ← newValue ty
  push (inst dst)
  return dst

/-- Adds the instruction that defines a new value of the type that `v` has. -/
def defineLike (v : Value) (inst : Value → Inst) : Attempt Value := do
  define (← ty v) inst

/-- The bits that the type can hold, as a constant. -/
def const (ty : Ty) (bits : UInt64) : Build Value := define ty (.const · (bits &&& ty.mask))

/-- The result has the type of `lhs`. -/
def binary (op : BinOp) (lhs rhs : Value) : Attempt Value := defineLike lhs (.binary · op lhs rhs)

def unary (op : UnOp) (src : Value) : Attempt Value := defineLike src (.unary · op src)

def icmp (cond : IntCC) (lhs rhs : Value) : Build Value := define .i1 (.icmp · cond lhs rhs)

def fcmp (cond : FloatCC) (lhs rhs : Value) : Build Value := define .i1 (.fcmp · cond lhs rhs)

/-- The result has the type of `ifTrue`. -/
def select (cond ifTrue ifFalse : Value) : Attempt Value :=
  defineLike ifTrue (.select · cond ifTrue ifFalse)

def cast (op : CastOp) (src : Value) (target : Ty) : Build Value := define target (.cast · op src)

def load (width : Width) (signed : Bool) (addr : Value) (ty : Ty) : Build Value :=
  define ty (.load · width signed addr)

def store (width : Width) (addr value : Value) : Build Unit := push (.store width addr value)

def readGuest (loc : Loc) : Build Value := define (.ofLoc loc) (.readGuest · loc)

def writeGuest (loc : Loc) (value : Value) : Build Unit := push (.writeGuest loc value)

/-! ### Phis -/

/-- Adds a phi without incoming values after the phis of the current block. -/
def phi (ty : Ty) : Build Value := do
  let dst ← newValue ty
  let b ← get
  let i := match b.function.block? b.current with
    | some block => block.phis.length
    | none => 0
  modifyCurrent (Block.insertAt i (.phi dst []))
  modify fun b => { b with phiSites := b.phiSites.insert dst.index (b.current, i) }
  return dst

/-- Adds the value that a phi has when control comes from `pred`. -/
def addIncoming (phi : Value) (pred : BlockId) (value : Value) : Attempt Unit := fun b =>
  match b.phiSites[phi.index]? with
  | some (block, i) => .ok (modifyBlock block (Block.extendPhi i pred value) b)
  | none => .error (.notPhi phi)

/-! ### Terminators -/

/-- Ends the current block, in place of an earlier end. -/
def terminate (t : Terminator) : Build Unit :=
  modifyCurrent fun b => { b with terminator := some t }

end Build

end HotRegion.Ssa
