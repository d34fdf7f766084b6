import HotRegion.Ascending

/-! # Flow graphs

A finite directed graph with an entry node. Nodes are numbers, listed in ascending order, and the
graph is given by the predecessors and the successors of each node. -/

namespace HotRegion.Flow

/-- A node of a graph. -/
abbrev Node := Nat

/-- A graph with an entry. -/
structure Graph where
  entry : Node
  /-- All nodes, ascending. -/
  nodes : List Node
  preds : Node → List Node
  succs : Node → List Node

/-- Adds `x` to an ascending list of nodes. -/
def insert (x : Node) (l : List Node) : List Node := Ascending.insert id x l

/-- All nodes of two ascending lists. -/
def union (l m : List Node) : List Node := Ascending.union id l m

namespace Graph

/-- Adds the successors of the nodes of `l`, again and again but at most `fuel` times, until nothing
new comes up. -/
def close (g : Graph) : Nat → List Node → List Node
  | 0, l => l
  | fuel + 1, l =>
    let next := l.foldl (fun acc x => union acc (g.succs x)) l
    if next = l then l else g.close fuel next

/-- The nodes that can be reached from the entry. -/
def reachable (g : Graph) : List Node := g.close g.nodes.length [g.entry]

end Graph

end HotRegion.Flow
