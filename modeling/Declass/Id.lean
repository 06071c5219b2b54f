/-!
# Indices

Nodes and scopes are kept in tables that only grow, and are named by their place in the table. An
index is a plain number: that it names an entry is a fact about a table, not about the index.

## Main definitions

* `NodeId` — an index of a node
* `ScopeId` — an index of a scope
-/

namespace Declass

/-- The index of a node in a store. -/
@[ext]
structure NodeId where
  index : Nat
  deriving DecidableEq, Inhabited, Repr

/-- The index of a scope in a table of scopes. -/
@[ext]
structure ScopeId where
  index : Nat
  deriving DecidableEq, Inhabited, Repr

end Declass
