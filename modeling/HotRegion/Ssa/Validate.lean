import HotRegion.Ssa.Function

/-! # Validity

The structural and type rules of functions. Only valid functions are run. -/

namespace HotRegion.Ssa

open Machine (Loc Width)

/-- What an operand has to be. -/
inductive Expectation where
  | float
  | integer
  | truth
  | address
  deriving DecidableEq

namespace Expectation

def test (e : Expectation) (ty : Ty) : Bool :=
  match e with
  | float => ty.isFloat
  | integer => ty.isInt
  | truth => ty = .i1
  | address => ty = .i32

instance : ToString Expectation where
  toString
    | float => "a float"
    | integer => "an integer"
    | truth => "i1"
    | address => "an i32 address"

end Expectation

/-- A violated type rule. -/
inductive TypeError where
  | different (a : Value) (aTy : Ty) (b : Value) (bTy : Ty)
  | unexpected (v : Value) (ty : Ty) (expected : Expectation)
  | badCast (op : CastOp) (source target : Ty)
  | wideLoad (dst : Value) (ty : Ty) (width : Width)
  | wideStore (value : Value) (ty : Ty) (width : Width)
  | badRead (loc : Loc) (ty : Ty)
  | badWrite (loc : Loc) (value : Value) (ty : Ty)
  | badEnd (value : Value) (expected : Ty)
  deriving DecidableEq

def TypeError.message : TypeError → String
  | different a aTy b bTy => s!"{a}:{aTy} and {b}:{bTy} must have the same type"
  | unexpected v ty expected => s!"{v}:{ty} must be {expected}"
  | badCast op source target => s!"can't {op} {source} to {target}"
  | wideLoad dst ty width => s!"{dst}:{ty} can't hold a {width} load"
  | wideStore value ty width => s!"{value}:{ty} is narrower than {width}"
  | badRead loc ty => s!"{loc} is read as {ty}"
  | badWrite loc value ty => s!"{loc} is written with {value}:{ty}"
  | badEnd value expected => s!"terminator operand {value} must be {expected}"

/-- A violated rule. -/
inductive ValidationError where
  | entryHasPredecessors
  | unterminated (block : BlockId)
  | redefined (value : Value)
  | undefined (value : Value) (block : BlockId)
  | unknownTarget (block : BlockId)
  | misplacedPhi (phi : Value)
  /-- A phi without exactly one incoming value per predecessor. -/
  | phiPredecessors (phi : Value) (block : BlockId)
  | type (block : BlockId) (error : TypeError)
  deriving DecidableEq

def ValidationError.message : ValidationError → String
  | entryHasPredecessors => "the entry block has predecessors"
  | unterminated block => s!"{block} has no terminator"
  | redefined value => s!"{value} is defined more than once"
  | undefined value block => s!"{value} is used in {block} but never defined"
  | unknownTarget block => s!"{block} branches to a block that doesn't exist"
  | misplacedPhi phi => s!"phi {phi} follows a non-phi instruction"
  | phiPredecessors phi block =>
    s!"phi {phi} in {block} doesn't have exactly one incoming value per predecessor"
  | type block error => s!"type error in {block}: {error.message}"

namespace Function

/-! ### Types -/

/-- Two values have one type. -/
def checkSame (f : Function) (a b : Value) : Except TypeError Unit :=
  if f.ty a = f.ty b then .ok () else .error (.different a (f.ty a) b (f.ty b))

/-- A value is what an instruction needs. -/
def checkIs (f : Function) (v : Value) (e : Expectation) : Except TypeError Unit :=
  if e.test (f.ty v) then .ok () else .error (.unexpected v (f.ty v) e)

/-- The conversion exists between these types. -/
def castAllowed (op : CastOp) (source target : Ty) : Bool :=
  match op with
  | .zext | .sext => source.isInt && target.isInt && source.width < target.width
  | .trunc => source.isInt && target.isInt && source.width > target.width
  | .bitcast => source.isInt != target.isInt && source.width == target.width
  | .sitofp => source.isInt && target.isFloat
  | .fptosi => source.isFloat && target.isInt
  | .fpext => source == .f32 && target == .f64
  | .fptrunc => source == .f64 && target == .f32

/-- The type rule of an instruction. -/
def checkTypes (f : Function) : Inst → Except TypeError Unit
  | .const .. => .ok ()
  | .binary dst op lhs rhs => do
    f.checkSame lhs rhs
    f.checkSame dst lhs
    f.checkIs lhs (if op.isFloat then .float else .integer)
  | .unary dst op src => do
    f.checkSame dst src
    f.checkIs src (if op.isFloat then .float else .integer)
  | .icmp dst _ lhs rhs => do
    f.checkSame lhs rhs
    f.checkIs lhs .integer
    f.checkIs dst .truth
  | .fcmp dst _ lhs rhs => do
    f.checkSame lhs rhs
    f.checkIs lhs .float
    f.checkIs dst .truth
  | .select dst cond ifTrue ifFalse => do
    f.checkIs cond .truth
    f.checkSame ifTrue ifFalse
    f.checkSame dst ifTrue
  | .cast dst op src =>
    if castAllowed op (f.ty src) (f.ty dst) then .ok ()
    else .error (.badCast op (f.ty src) (f.ty dst))
  | .load dst width _ addr => do
    f.checkIs addr .address
    f.checkIs dst .integer
    if (f.ty dst).width < width.bits then .error (.wideLoad dst (f.ty dst) width)
  | .store width addr value => do
    f.checkIs addr .address
    f.checkIs value .integer
    if (f.ty value).width < width.bits then .error (.wideStore value (f.ty value) width)
  | .readGuest dst loc =>
    if f.ty dst = .ofLoc loc then .ok () else .error (.badRead loc (f.ty dst))
  | .writeGuest loc value =>
    if f.ty value = .ofLoc loc then .ok () else .error (.badWrite loc value (f.ty value))
  | .phi dst incoming => incoming.forM fun (_, value) => f.checkSame dst value

/-- The type rule of a terminator. -/
def checkEnd (f : Function) (t : Terminator) : Except TypeError Unit :=
  let check := fun (v : Value) (ty : Ty) =>
    if f.ty v = ty then Except.ok () else .error (TypeError.badEnd v ty)
  match t with
  | .jump _ => .ok ()
  | .branch cond .. => check cond .i1
  | .exit pc _ => check pc .i32

/-! ### Structure -/

/-- Marks the values that instructions define, each only once. -/
def markDefined (marks : Array Bool) : List Inst → Except ValidationError (Array Bool)
  | [] => .ok marks
  | inst :: rest =>
    match inst.dst? with
    | none => markDefined marks rest
    | some dst =>
      if marks.getD dst.index false then .error (.redefined dst)
      else markDefined (marks.setIfInBounds dst.index true) rest

/-- All instructions in block order. -/
def allInsts (f : Function) : List Inst := f.blocks.toList.flatMap (·.insts.toList)

/-- Every value that is read has a definition. -/
def checkDefined (defined : Array Bool) (block : BlockId) (values : List Value) :
    Except ValidationError Unit :=
  values.forM fun v => if defined.getD v.index false then .ok () else .error (.undefined v block)

/-- A phi has exactly one incoming value per predecessor. -/
def coversPredecessors (preds : List BlockId) (incoming : List (BlockId × Value)) : Bool :=
  incoming.length == preds.length && preds.all fun p => incoming.countP (·.1 == p) == 1

/-- Checks instructions in order; `pastPhis` says that an instruction other than a phi came before.
-/
def checkInsts (f : Function) (defined : Array Bool) (block : BlockId) (preds : List BlockId) :
    Bool → List Inst → Except ValidationError Unit
  | _, [] => .ok ()
  | pastPhis, inst :: rest => do
    checkDefined defined block inst.operands
    match inst with
    | .phi dst incoming =>
      if pastPhis then throw (.misplacedPhi dst)
      if !coversPredecessors preds incoming then throw (.phiPredecessors dst block)
    | _ => pure ()
    (f.checkTypes inst).mapError (.type block ·)
    f.checkInsts defined block preds (pastPhis || !inst.isPhi) rest

def checkBlock (f : Function) (defined : Array Bool) (id : BlockId) (b : Block) :
    Except ValidationError Unit :=
  match b.terminator with
  | none => .error (.unterminated id)
  | some t => do
    if t.successors.any (f.blocks.size ≤ ·.index) then throw (.unknownTarget id)
    f.checkInsts defined id (f.predecessors id) false b.insts.toList
    checkDefined defined id t.operands
    (f.checkEnd t).mapError (.type id ·)

/-- Checks that every value is defined once and used at its type, that every block ends, that every
phi covers the predecessors of its block, and that no edge leads to the entry. -/
def validate (f : Function) : Except ValidationError Unit := do
  let defined ← markDefined (Array.replicate f.types.size false) f.allInsts
  if !(f.predecessors entry).isEmpty then throw .entryHasPredecessors
  f.blocks.toList.zipIdx.forM fun (b, i) => f.checkBlock defined ⟨i⟩ b

end Function

end HotRegion.Ssa
