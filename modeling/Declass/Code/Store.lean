import Declass.Fault
import Declass.Code.Shape

/-!
# The store of nodes

A program is a graph of nodes in a store: a table that only grows, so that an index keeps its
meaning. A node may be shared, and an index may name no node at all; it is a fault to look at such
an index, not to hold it.

## Main definitions

* `Node` — a shape over indices, with the range it was read from
* `Store`, `Store.get?`, `Store.push`
* `Store.walkBound` — how deep a walk that starts in a store may go

## Main results

* `Store.get?_push` — after a node is pushed, the index returned names it and all others are as they
  were
-/

namespace Declass

/-- A node of a program. Generated nodes have no range. -/
structure Node where
  shape : Shape NodeId
  range : Option Range
  deriving DecidableEq

/-- A table of nodes. -/
structure Store where
  nodes : Array Node := #[]
  deriving DecidableEq

namespace Store

/-- The number of nodes. -/
def size (s : Store) : Nat :=
  s.nodes.size

/-- The node at an index, if there is one. -/
def get? (s : Store) (id : NodeId) : Option Node :=
  s.nodes[id.index]?

/-- The index that the next node will have. -/
def nextId (s : Store) : NodeId :=
  ⟨s.size⟩

/-- Append a node; it is found at `nextId`. -/
def push (s : Store) (node : Node) : Store :=
  ⟨s.nodes.push node⟩

/-- The node at an index that must name one. -/
def node (s : Store) (id : NodeId) : Except Fault Node :=
  match s.get? id with
  | some node => .ok node
  | none => .error (.missingNode id)

/-- The shape of a node, if there is such a node. -/
def shape? (s : Store) (id : NodeId) : Option (Shape NodeId) :=
  (s.get? id).map Node.shape

/-- The range of a node, if there is such a node and it has one. -/
def range? (s : Store) (id : NodeId) : Option Range :=
  (s.get? id).bind Node.range

/-- The name that an identifier holds, where it is declared or used. -/
def identifierText (s : Store) (id : NodeId) : Except Fault String := do
  match (← s.node id).shape with
  | .binding name | .identifier name => return name
  | other => throw (.unexpectedNode "identifier" other.kind)

/-- How deep a walk that starts in `s` may go. A path along children visits each node at most once,
so `size + 1` steps lead from a node of a graph without cycles to its end. A walk may append nodes,
and an index that names nothing at first may name one of them by the time it is reached; the path
then goes on among nodes that were not there at the start, and the square leaves room for them. -/
def walkBound (s : Store) : Nat :=
  (s.size + 8) * (s.size + 8)

@[simp]
theorem size_push (s : Store) (node : Node) : (s.push node).size = s.size + 1 := by
  simp [push, size]

/-- Pushing a node changes what is found at one index. -/
theorem get?_push (s : Store) (node : Node) (id : NodeId) :
    (s.push node).get? id = if id = s.nextId then some node else s.get? id := by
  obtain ⟨i⟩ := id
  simp [push, get?, nextId, size, Array.getElem?_push]

/-- An index names a node exactly if it is below the number of nodes. -/
theorem isSome_get?_iff (s : Store) (id : NodeId) : (s.get? id).isSome ↔ id.index < s.size := by
  simp [get?, size]

end Store

end Declass
