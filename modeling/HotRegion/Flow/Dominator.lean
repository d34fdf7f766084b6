import HotRegion.Flow.Graph

/-! # Dominators

A node dominates another if every path from the entry to the latter passes through it. Dominator
sets are the largest solution of their equations; the dominator tree links every node to its
immediate dominator, the last of its strict dominators on any path. -/

namespace HotRegion.Flow

/-- The immediate dominator of every node, in ascending order of nodes. -/
structure DominatorTree where
  entry : Node
  idoms : List (Node × Option Node)
  deriving DecidableEq

/-! ### Dominator sets -/

/-- For every node, in ascending order, the ascending list of nodes that may dominate it. -/
abbrev DomSets := List (Node × List Node)

namespace DomSets

def get (sets : DomSets) (b : Node) : List Node := (sets.lookup b).getD []

def set (sets : DomSets) (b : Node) (doms : List Node) : DomSets :=
  sets.map fun p => if p.1 = b then (b, doms) else p

end DomSets

namespace Graph

/-- Before the first round, the entry dominates itself and any node may dominate the others. -/
def initialDoms (g : Graph) : DomSets :=
  g.nodes.map fun b => (b, if b = g.entry then [g.entry] else g.nodes)

/-- The nodes that dominate all predecessors of `b`, and `b` itself. A node without predecessors
keeps what it has. -/
def meetDoms (g : Graph) (sets : DomSets) (b : Node) : List Node :=
  match g.preds b with
  | [] => sets.get b
  | p :: ps =>
    insert b (ps.foldl (fun acc q => acc.filter ((sets.get q).contains ·)) (sets.get p))

/-- One round: every node but the entry, in order, gets the set that its predecessors allow. -/
def refineDoms (g : Graph) (sets : DomSets) : DomSets :=
  g.nodes.foldl (fun sets b => if b = g.entry then sets else sets.set b (g.meetDoms sets b)) sets

/-- Rounds until nothing changes, at most `fuel`. -/
def settleDoms (g : Graph) : Nat → DomSets → DomSets
  | 0, sets => sets
  | fuel + 1, sets =>
    let next := g.refineDoms sets
    if next = sets then sets else g.settleDoms fuel next

/-- The dominators of every node. Each round but the last removes a node from a set, so the rounds
below are enough. -/
def domSets (g : Graph) : DomSets :=
  g.settleDoms (g.nodes.length * g.nodes.length + 1) g.initialDoms

/-- The strict dominator with the most dominators, the last one of several. -/
def deepest (sets : DomSets) (b : Node) : Option Node :=
  ((sets.get b).filter (· != b)).foldl (fun best d =>
    match best with
    | some c => if (sets.get c).length ≤ (sets.get d).length then some d else best
    | none => some d) none

/-- The dominator tree of a graph. -/
def dominatorTree (g : Graph) : DominatorTree :=
  let sets := g.domSets
  ⟨g.entry, g.nodes.map fun b => (b, deepest sets b)⟩

end Graph

/-! ### The tree -/

namespace DominatorTree

/-- The immediate dominator of a node; the entry has none. -/
def idom (t : DominatorTree) (b : Node) : Option Node := (t.idoms.lookup b).join

/-- The nodes whose immediate dominator is `b`, ascending. -/
def children (t : DominatorTree) (b : Node) : List Node :=
  (t.idoms.filter (·.2 == some b)).map (·.1)

/-- `b` and the nodes above it in the tree, at most `fuel` of them. -/
def ancestors (t : DominatorTree) : Nat → Node → List Node
  | 0, _ => []
  | fuel + 1, b =>
    b :: match t.idom b with
      | some d => t.ancestors fuel d
      | none => []

/-- The dominators of a node, from the node itself up to the entry. -/
def dominators (t : DominatorTree) (b : Node) : List Node := t.ancestors (t.idoms.length + 1) b

def dominates (t : DominatorTree) (a b : Node) : Bool := (t.dominators b).contains a

/-- The subtree of `b` in preorder, to depth `fuel`, children in ascending order. -/
def subtree (t : DominatorTree) : Nat → Node → List Node
  | 0, _ => []
  | fuel + 1, b => b :: (t.children b).flatMap (t.subtree fuel)

/-- All nodes below the entry in preorder. -/
def preorder (t : DominatorTree) : List Node := t.subtree t.idoms.length t.entry

end DominatorTree

end HotRegion.Flow
