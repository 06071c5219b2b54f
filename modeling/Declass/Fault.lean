import Declass.Id
import Declass.Range

/-!
# Faults

A fault is a breach of the contract between the passes: a tree that is not what a pass may expect.
It ends the pass and is never turned into a diagnostic, for the program at hand is not to blame.

## Main definitions

* `Fault`, `Fault.message`
-/

namespace Declass

/-- What can end a pass. -/
inductive Fault where
  /-- A class has a member of a kind that classes do not have. -/
  | unexpectedMember (kind : String) (range : Option Range)
  /-- An index names no node. -/
  | missingNode (id : NodeId)
  /-- A node is of another kind than its place asks for. -/
  | unexpectedNode (expected found : String)
  /-- A class context is asked for while no class is being lowered. -/
  | unbalancedClassContext
  /-- A scope is closed that is not the innermost one. -/
  | scopeMismatch (expected actual : ScopeId)
  /-- A name is declared or used while no scope is open. -/
  | noActiveScope
  /-- A generated identifier is declared nowhere. -/
  | unboundSynthetic (name : String)
  /-- A `let` or `const` statement reached the check. -/
  | blockScopedDeclaration (keyword : String) (range : Option Range)
  /-- A class reached the check. -/
  | unloweredClass (range : Option Range)
  /-- A pass over a tree, or the way out of a scope, was longer than it can be without cycles. -/
  | unboundedNesting
  deriving DecidableEq, Repr

namespace Fault

/-- The place of a fault as it ends a message; nothing for generated code. -/
def place : Option Range → String
  | some range => " at " ++ range.display
  | none => ""

/-- The text of a fault. -/
def message : Fault → String
  | .unexpectedMember kind range => "unexpected class member kind `" ++ kind ++ "`" ++ place range
  | .missingNode id => "node #" ++ toString id.index ++ " is not in the arena"
  | .unexpectedNode expected found => "expected " ++ expected ++ " node, found " ++ found
  | .unbalancedClassContext => "class context stack popped while empty"
  | .scopeMismatch expected actual =>
    "scope push/pop mismatch: popping scope #" ++ toString expected.index ++ " but #"
      ++ toString actual.index ++ " is innermost"
  | .noActiveScope => "no active scope"
  | .unboundSynthetic name => "synthesized identifier `" ++ name ++ "` is not bound"
  | .blockScopedDeclaration keyword range =>
    "`" ++ keyword ++ "` declaration was not lowered" ++ place range
  | .unloweredClass range => "class was not lowered" ++ place range
  | .unboundedNesting => "nodes are nested without end"

end Fault

end Declass
