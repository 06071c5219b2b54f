import Declass.Lowering.Class

/-!
# Passes

A pass takes a program to a program and may report. Besides the lowering of classes there are some
small passes that work on any tree.

## Main definitions

* `Edit.unchanged`, `Edit.renameUses`, `Edit.letToVar` — edits of any tree
* `Pass`, `Pass.classLowering`, `Pass.rename`, …
-/

namespace Declass

namespace Edit

variable {σ : Type}

/-- Walk a tree without a change of its own, down to `height` levels. -/
def unchanged : Nat → NodeId → Edit σ NodeId
  | 0, _ => throw .unboundedNesting
  | height + 1, id => walk (unchanged height) id

/-- Rename the uses of a name, wherever they stand. -/
def renameUses (old new : String) : Nat → NodeId → Edit σ NodeId
  | 0, _ => throw .unboundedNesting
  | height + 1, id => do
    let node ← node id
    if node.shape = .identifier old then
      append (.identifier new) node.range
    else
      walk (renameUses old new height) id

/-- Turn `let` and `const` statements into `var` statements, from the inside out. -/
def letToVar : Nat → NodeId → Edit σ NodeId
  | 0, _ => throw .unboundedNesting
  | height + 1, id => do
    let id ← walk (letToVar height) id
    let node ← node id
    match node.shape with
    | .varStatement .letWord declarators | .varStatement .constWord declarators =>
      append (.varStatement .varWord declarators) node.range
    | _ => return id

/-- Run an edit that is bounded in depth by what the store at hand allows. -/
def bounded (edit : Nat → NodeId → Edit σ NodeId) (id : NodeId) : Edit σ NodeId := do
  edit (← store).walkBound id

end Edit

/-- A step of a compilation. -/
structure Pass where
  name : String
  run : Options → NodeId → Edit Journal NodeId

namespace Pass

open Edit

/-- The lowering of classes, with temporaries of its own. -/
def classLowering : Pass where
  name := "class-lowering"
  run options id := ExceptT.mk fun session =>
    let (outcome, final) :=
      (Lowering.lowerProgram options id).runOn ⟨session.store, { journal := session.state }⟩
    (outcome, ⟨final.store, final.state.journal⟩)

/-- Leave the program as it is. -/
def identity : Pass where
  name := "identity"
  run _ := bounded unchanged

/-- Rename the uses of a name. -/
def rename (old new : String) : Pass where
  name := "rename"
  run _ := bounded (renameUses old new)

/-- Turn `let` and `const` into `var`. -/
def letToVar : Pass where
  name := "let-to-var"
  run _ := bounded Edit.letToVar

/-- Fail. -/
def fail : Pass where
  name := "fail"
  run _ _ := throw .noActiveScope

/-- Go on with another program. -/
def replace (root : NodeId) : Pass where
  name := "replace"
  run _ _ := return root

/-- Report a message and leave the program as it is. -/
def report (range : Option Range) (message : Message) (arguments : List String) : Pass where
  name := "report"
  run _ id := do
    modifyState fun journal => journal.report range message arguments
    return id

/-- Append a statement that mentions the namespace of the helpers. -/
def appendRuntime : Pass where
  name := "append-runtime"
  run options id := do
    let space ← Build.identifier options.runtimeName
    let statement ← Build.exprStatement space
    let node ← node id
    match node.shape with
    | .program statements => append (.program (statements ++ [statement])) node.range
    | other => throw (.unexpectedNode "Program" other.kind)

end Pass

end Declass
