import Declass.Code.Store

/-!
# Edits of a store

An edit reads and extends a store, has a state of its own beside it, and may fail. A failure ends
the edit and undoes nothing: what was appended stays in the store, and the state is what it was at
the moment of the failure. This is the contract that all passes share.

A walk visits the children of a node and builds the node anew only if one of them has changed, so a
part of the tree without changes keeps its index.

## Main definitions

* `Session`, `Edit` — a store with a state, and computations on them
* `Edit.node`, `Edit.append`, `Edit.attempt` — the primitive edits
* `Edit.walk` — visit the children of a node
-/

namespace Declass

/-- A store and the state of the pass that works on it. -/
structure Session (σ : Type) where
  store : Store
  state : σ

/-- A computation that extends a store and may fail without undoing anything. -/
abbrev Edit (σ : Type) : Type → Type :=
  ExceptT Fault (StateM (Session σ))

namespace Edit

variable {σ α : Type}

/-- The outcome of an edit and the session it leaves behind. -/
def runOn (edit : Edit σ α) (session : Session σ) : Except Fault α × Session σ :=
  StateT.run (ExceptT.run edit) session

/-- The store as it is now. -/
def store : Edit σ Store :=
  return (← get).store

/-- The state of the pass. -/
def state : Edit σ σ :=
  return (← get).state

/-- Change the state of the pass. -/
def modifyState (f : σ → σ) : Edit σ Unit :=
  modify fun session => { session with state := f session.state }

/-- Change the state of the pass and return a value read off it. -/
def modifyGetState (f : σ → α × σ) : Edit σ α :=
  modifyGet fun session =>
    let (value, state) := f session.state
    (value, { session with state })

/-- Go on with an outcome: fail if it is a failure. -/
def settle : Except Fault α → Edit σ α
  | .ok value => pure value
  | .error fault => throw fault

/-- Run an edit to its end, be it a failure. -/
def attempt (edit : Edit σ α) : Edit σ (Except Fault α) :=
  ExceptT.mk (do return .ok (← edit.run))

/-- The node at `id`. -/
def node (id : NodeId) : Edit σ Node := do
  settle ((← store).node id)

/-- The range of the node at `id`, if there is one. -/
def range? (id : NodeId) : Edit σ (Option Range) :=
  return (← store).range? id

/-- Append a node and return its index. -/
def append (shape : Shape NodeId) (range : Option Range) : Edit σ NodeId :=
  modifyGet fun session =>
    (session.store.nextId, { session with store := session.store.push ⟨shape, range⟩ })

/-- Append a generated node. -/
def synth (shape : Shape NodeId) : Edit σ NodeId :=
  append shape none

/-- Visit the children of the node at `id` from left to right. If one of them comes back changed,
append the node with the new children; if none does, the node stands as it is. -/
def walk (visit : NodeId → Edit σ NodeId) (id : NodeId) : Edit σ NodeId := do
  let node ← node id
  let shape ← node.shape.mapM visit
  if shape.children = node.shape.children then
    return id
  append shape node.range

end Edit

end Declass
