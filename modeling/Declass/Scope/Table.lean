import Declass.Fault

/-!
# Scopes

Scopes are opened and closed in a nested way. While a scope is open, names are declared in it and
used in it. When it is closed, the uses of names that it does not declare move on to the scope
around it, or out of the table if there is none. Of several uses of one name the first is
remembered.

A table keeps all scopes ever opened, so a scope can be looked at after it was closed. It knows the
innermost open scope; the other open scopes are found from there, each as the parent of the last.
Edits look scopes up by index, and an index that is not in the table is a fault. What an edit has
done before it fails stays done.

## Main definitions

* `ScopeKind`, `Scope`
* `Scopes` — the scopes, each with its parent, and the innermost open one
* `ScopeEdit` — computations on a table that may fail
* `ScopeEdit.push`, `.declare`, `.declareVar`, `.reference`, `.pop` — the edits of a table
-/

namespace Declass

/-- What a scope belongs to. -/
inductive ScopeKind where
  | root
  | function
  | accessor
  | catchClause
  deriving DecidableEq, Repr

namespace ScopeKind

/-- Whether `var` declarations stay in the scope. They leave a catch clause. -/
def isFunctionBoundary : ScopeKind → Bool
  | .catchClause => false
  | _ => true

/-- The name of a kind of scope. -/
def name : ScopeKind → String
  | .root => "Root"
  | .function => "Function"
  | .accessor => "Accessor"
  | .catchClause => "Catch"

end ScopeKind

/-- A use of a name. Generated uses have no range. -/
structure Reference where
  name : String
  range : Option Range
  deriving DecidableEq, Repr

/-- The order of the text. Generated uses come first. -/
def Reference.ble (a b : Reference) : Bool :=
  match a.range, b.range with
  | some r, some s => r.ble s
  | some _, none => false
  | none, _ => true

/-- A scope. -/
structure Scope where
  kind : ScopeKind
  parent : Option ScopeId
  /-- The names declared, each once. -/
  declared : List String := []
  /-- The first use of each name used, in order of use, since the scope was opened. -/
  pending : List Reference := []
  deriving DecidableEq, Repr

namespace Scope

/-- Whether a name is declared in the scope. -/
def declares (scope : Scope) (name : String) : Bool :=
  name ∈ scope.declared

/-- The use of a name that is pending in the scope. -/
def pending? (scope : Scope) (name : String) : Option Reference :=
  scope.pending.find? (·.name == name)

/-- Declare a name. -/
def declare (scope : Scope) (name : String) : Scope :=
  if scope.declares name then scope
  else { scope with declared := scope.declared ++ [name] }

/-- Use a name. -/
def reference (scope : Scope) (use : Reference) : Scope :=
  if (scope.pending? use.name).isSome then scope
  else { scope with pending := scope.pending ++ [use] }

/-- Of some uses, those of names that have no use pending in the scope. -/
def newUses (scope : Scope) (uses : List Reference) : List Reference :=
  uses.filter fun use => (scope.pending? use.name).isNone

/-- The pending uses of names that the scope does not declare, sorted by name. -/
def unresolved (scope : Scope) : List Reference :=
  (scope.pending.filter fun use => !scope.declares use.name).mergeSort
    fun a b => decide (a.name ≤ b.name)

end Scope

/-- All scopes opened so far. -/
structure Scopes where
  table : Array Scope := #[]
  /-- The innermost open scope. -/
  current? : Option ScopeId := none
  deriving DecidableEq, Repr

/-- What happens when a scope is closed. -/
structure Closing where
  /-- The uses that the scope does not resolve, sorted by name. -/
  unresolved : List Reference
  /-- The scope around it, and those of the uses that are new to that scope. -/
  moved : Option (ScopeId × List Reference)
  deriving DecidableEq, Repr

/-- The uses that no scope is left to resolve. -/
def Closing.escaped (closing : Closing) : List Reference :=
  match closing.moved with
  | some _ => []
  | none => closing.unresolved

namespace Scopes

/-- The scope with an index. -/
def get? (scopes : Scopes) (id : ScopeId) : Option Scope :=
  scopes.table[id.index]?

/-- The number of scopes opened so far. -/
def size (scopes : Scopes) : Nat :=
  scopes.table.size

/-- Change one scope. -/
def modify (scopes : Scopes) (id : ScopeId) (f : Scope → Scope) : Scopes :=
  { scopes with table := scopes.table.modify id.index f }

/-- Open a scope inside the innermost one. -/
def push (scopes : Scopes) (kind : ScopeKind) : ScopeId × Scopes :=
  let id : ScopeId := ⟨scopes.size⟩
  (id, {
    table := scopes.table.push { kind, parent := scopes.current? }
    current? := some id })

/-- Drop what is pending in the scope `id`, and leave it for its parent. -/
def close (scopes : Scopes) (id : ScopeId) (parent : Option ScopeId) : Scopes :=
  { scopes.modify id ({ · with pending := [] }) with current? := parent }

/-- Hand uses on to a scope. -/
def handOn (scopes : Scopes) (id : ScopeId) (uses : List Reference) : Scopes :=
  scopes.modify id fun scope => uses.foldl Scope.reference scope

end Scopes

/-- A computation on a table of scopes. If it fails, the table is what it was at that moment. -/
abbrev ScopeEdit : Type → Type :=
  ExceptT Fault (StateM Scopes)

namespace ScopeEdit

/-- The innermost open scope, which must exist. -/
def current : ScopeEdit ScopeId := do
  match (← get).current? with
  | some id => return id
  | none => throw .noActiveScope

/-- The scope with an index. The fault of an index that is not in the table names the innermost
scope, or the largest number of 32 bits if there is none. -/
def scope (id : ScopeId) : ScopeEdit Scope := do
  let scopes ← get
  match scopes.get? id with
  | some scope => return scope
  | none => throw (.scopeMismatch id (scopes.current?.getD ⟨UInt32.size - 1⟩))

/-- Change the scope with an index. -/
def change (id : ScopeId) (f : Scope → Scope) : ScopeEdit Unit := do
  let _ ← scope id
  modify (·.modify id f)

/-- Open a scope inside the innermost one. -/
def push (kind : ScopeKind) : ScopeEdit ScopeId :=
  modifyGet (·.push kind)

/-- Declare a name in the innermost scope. -/
def declare (name : String) : ScopeEdit Unit := do
  change (← current) (·.declare name)

/-- Use a name in the innermost scope. -/
def reference (use : Reference) : ScopeEdit Unit := do
  change (← current) (·.reference use)

/-- The scope that takes a `var` declaration which is made in the scope `id`: from there outwards,
the first one that keeps it or has no parent. No more than `bound` scopes are looked at. -/
def varOwner : Nat → ScopeId → ScopeEdit ScopeId
  | 0, _ => throw .unboundedNesting
  | bound + 1, id => do
    let scope ← scope id
    match scope.parent with
    | some parent => if scope.kind.isFunctionBoundary then return id else varOwner bound parent
    | none => return id

/-- Declare a name as `var` and function declarations do. No scope is its own ancestor, so the way
out is no longer than the table. -/
def declareVar (name : String) : ScopeEdit Unit := do
  let id ← current
  let owner ← varOwner (← get).size id
  change owner (·.declare name)

/-- Close the scope `id`, which must be the innermost one. -/
def pop (id : ScopeId) : ScopeEdit Closing := do
  let actual ← current
  if actual ≠ id then
    throw (.scopeMismatch id actual)
  let closed ← scope id
  modify (·.close id closed.parent)
  match closed.parent with
  | some parent =>
    let around ← scope parent
    let uses := around.newUses closed.unresolved
    modify (·.handOn parent uses)
    return ⟨closed.unresolved, some (parent, uses)⟩
  | none => return ⟨closed.unresolved, none⟩

/-- What an edit returns and the table after it, if it does not fail. -/
def result {α : Type} (edit : ScopeEdit α) (scopes : Scopes) : Except Fault (α × Scopes) :=
  let (outcome, scopes') := edit.run.run scopes
  outcome.map (·, scopes')

end ScopeEdit

namespace Scopes

/-- The table with a name declared in the innermost scope. -/
def declare (scopes : Scopes) (name : String) : Except Fault Scopes :=
  ((ScopeEdit.declare name).result scopes).map Prod.snd

/-- The table with a name declared as `var` and function declarations do. -/
def declareVar (scopes : Scopes) (name : String) : Except Fault Scopes :=
  ((ScopeEdit.declareVar name).result scopes).map Prod.snd

/-- The table with a name used in the innermost scope. -/
def reference (scopes : Scopes) (use : Reference) : Except Fault Scopes :=
  ((ScopeEdit.reference use).result scopes).map Prod.snd

/-- The table without the innermost scope `id`, and what has become of the uses in it. -/
def pop (scopes : Scopes) (id : ScopeId) : Except Fault (Closing × Scopes) :=
  (ScopeEdit.pop id).result scopes

end Scopes

end Declass
