import HotRegion.Flow.Dominator

/-! # Dominance frontiers

The frontier of a node holds the nodes at which its dominance ends: it dominates a predecessor of
them and does not strictly dominate them. Values defined in a set of nodes meet exactly at its
iterated frontier. -/

namespace HotRegion.Flow

namespace DominatorTree

/-- The nodes from `b` up to, but not including, `stop`, at most `fuel` of them. -/
def walkUp (t : DominatorTree) (stop : Node) : Nat → Option Node → List Node
  | 0, _ | _, none => []
  | fuel + 1, some b => if b = stop then [] else b :: t.walkUp stop fuel (t.idom b)

/-- The nodes in whose frontier `b` lies: those met when walking up from the predecessors of a node
where paths join to its immediate dominator. -/
def joinedBy (t : DominatorTree) (g : Graph) (b : Node) : List Node :=
  match g.preds b, t.idom b with
  | preds@(_ :: _ :: _), some d =>
    preds.flatMap fun p => t.walkUp d (t.idoms.length + 1) (some p)
  | _, _ => []

/-- For every node, in ascending order, its frontier in ascending order. -/
def frontiers (t : DominatorTree) (g : Graph) : List (Node × List Node) :=
  let joins := g.nodes.map fun b => (b, t.joinedBy g b)
  g.nodes.map fun x => (x, (joins.filter (·.2.contains x)).map (·.1))

end DominatorTree

/-- The frontier of `x` in a table of frontiers. -/
def frontierOf (frontiers : List (Node × List Node)) (x : Node) : List Node :=
  (frontiers.lookup x).getD []

/-- A search for an iterated frontier under way. -/
structure FrontierSearch where
  /-- The nodes that are still to be worked on, the next one first. -/
  work : List Node
  /-- Every node that was ever to be worked on, ascending. -/
  queued : List Node
  /-- The nodes found so far, ascending. -/
  found : List Node

namespace FrontierSearch

/-- Finds a node. A new one is to be worked on, too, unless it was so already. -/
def find (s : FrontierSearch) (x : Node) : FrontierSearch :=
  if s.found.contains x then s
  else if s.queued.contains x then { s with found := insert x s.found }
  else ⟨x :: s.work, insert x s.queued, insert x s.found⟩

/-- Works on at most `fuel` nodes, each of which finds those of its frontier. -/
def run (frontiers : List (Node × List Node)) : Nat → FrontierSearch → FrontierSearch
  | 0, s => s
  | fuel + 1, s =>
    match s.work with
    | [] => s
    | x :: work => run frontiers fuel ((frontierOf frontiers x).foldl find { s with work := work })

end FrontierSearch

/-- The iterated frontier of `defs`. A node is worked on as one of `defs` or after it was found. -/
def iteratedFrontier (frontiers : List (Node × List Node)) (defs : List Node) : List Node :=
  (FrontierSearch.run frontiers (defs.length + frontiers.length) ⟨defs.reverse, defs, []⟩).found

end HotRegion.Flow
