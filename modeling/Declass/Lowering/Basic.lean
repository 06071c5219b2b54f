import Declass.Temps
import Declass.Journal
import Declass.Code.Build

/-!
# The state of a lowering

Lowering a program allocates temporaries, reports misplaced `super`s and notes what it does. The
classes that are being lowered at a moment form a stack; each has an expression that names it inside
its members.

## Main definitions

* `Options` — what a caller may choose
* `ClassContext`, `LoweringState`, `Lowering`
* `Lowering.allocate`, `Lowering.release`, `Lowering.inTempScope` — temporaries
* `Lowering.pushClass`, `Lowering.popClass` — the stack of classes
-/

namespace Declass

/-- What a caller may choose about the lowered code. -/
structure Options where
  /-- Declare lowered classes with `let` instead of `var`. -/
  blockBinding : Bool := false
  /-- The name of the namespace that holds the helpers. -/
  runtimeName : String := "$runtime"
  deriving DecidableEq, Repr

/-- A class whose members are being lowered. -/
structure ClassContext where
  /-- The class. -/
  node : NodeId
  /-- The expression that names the class inside its members. -/
  nameExpr : NodeId
  /-- Whether one of its own members has used `super`. -/
  usesSuper : Bool
  deriving DecidableEq, Repr

/-- The state of a lowering, beside the store. -/
structure LoweringState where
  temps : Temps := {}
  /-- The classes that are being lowered, innermost first. -/
  classes : List ClassContext := []
  /-- Whether the member at hand has used `super`. -/
  usedSuper : Bool := false
  journal : Journal := {}
  deriving DecidableEq, Repr

/-- An edit in the course of a lowering. -/
abbrev Lowering : Type → Type :=
  Edit LoweringState

namespace Lowering

open Edit

/-- Note an event. -/
def record (event : Log.Event) : Lowering Unit :=
  modifyState fun s => { s with journal := s.journal.record event }

/-- Report a problem of the program. -/
def report (range : Option Range) (message : Message) : Lowering Unit :=
  modifyState fun s => { s with journal := s.journal.report range message [] }

/-- Do something inside a span of the log, which ends also with a failure. -/
def inSpan {α : Type} (span : Log.Span) (act : Lowering α) : Lowering α := do
  modifyState fun s => { s with journal := s.journal.enter span }
  let outcome ← attempt act
  modifyState fun s => { s with journal := s.journal.leave }
  settle outcome

/-! ### Temporaries -/

/-- Allocate a temporary. -/
def allocate : Lowering Nat := do
  let number ← modifyGetState fun s =>
    let (number, temps) := s.temps.allocate
    (number, { s with temps })
  record {
    level := .trace
    target := "lowerjs_lowering::temp_vars"
    message := "allocated temp var"
    fields := [("name", .text (Temps.name number)), ("depth", .number (← state).temps.depth)] }
  return number

/-- Give a temporary back. -/
def release (number : Nat) : Lowering Unit := do
  let released ← modifyGetState fun s =>
    let (released, temps) := s.temps.release number
    (released, { s with temps })
  if released then
    record {
      level := .trace
      target := "lowerjs_lowering::temp_vars"
      message := "released temp var"
      fields := [("name", .text (Temps.name number))] }

/-- Put a declaration in front of the body of a function. A body that is an expression becomes a
block that returns it. -/
def prependToBody (declaration body : NodeId) : Lowering NodeId := do
  let node ← node body
  let statements ← match node.shape with
    | .block statements => pure statements
    | _ => pure [← append (.returnStatement (some body)) node.range]
  append (.block (declaration :: statements)) node.range

/-- Declare temporaries at the top of a program or of the body of a function. -/
def declareTemps (temps : List String) (id : NodeId) : Lowering NodeId := do
  let quoted := temps.map fun temp => "\"" ++ temp ++ "\""
  record {
    level := .trace
    target := "lowerjs_lowering::class_transformer"
    message := "declaring temp vars"
    fields := [("node", .number id.index),
      ("temps", .text ("[" ++ ", ".intercalate quoted ++ "]"))] }
  let declaration ← Build.declareAll temps
  let node ← node id
  let shape : Shape NodeId ← match node.shape with
    | .program statements => pure (.program (declaration :: statements))
    | .functionDecl name parameters body =>
      pure (.functionDecl name parameters (← prependToBody declaration body))
    | .functionExpr name parameters body =>
      pure (.functionExpr name parameters (← prependToBody declaration body))
    | .arrow parameters body => pure (.arrow parameters (← prependToBody declaration body))
    | .method name parameters body =>
      pure (.method name parameters (← prependToBody declaration body))
    | .getter name body => pure (.getter name (← prependToBody declaration body))
    | .setter name incoming body =>
      pure (.setter name incoming (← prependToBody declaration body))
    | other => throw (.unexpectedNode "function-like" other.kind)
  append shape node.range

/-- Lower a program or a function in a scope of temporaries of its own, then declare the temporaries
that the scope still holds. The scope is closed also if the lowering fails. -/
def inTempScope (lower : Lowering NodeId) : Lowering NodeId := do
  modifyState fun s => { s with temps := s.temps.push }
  let lowered ← attempt lower
  let held ← modifyGetState fun s =>
    let (held, temps) := s.temps.pop
    (held, { s with temps })
  let id ← settle lowered
  if held.isEmpty then
    return id
  declareTemps (held.map Temps.name) id

/-! ### The stack of classes -/

/-- Begin with the members of a class. -/
def pushClass (node nameExpr : NodeId) : Lowering Unit := do
  modifyState fun s => { s with classes := ⟨node, nameExpr, false⟩ :: s.classes }
  record {
    level := .trace
    target := "lowerjs_lowering::class_transformer"
    message := "push class context"
    fields := [("class", .number node.index), ("depth", .number (← state).classes.length)] }

/-- The class whose members are being lowered. -/
def currentClass : Lowering ClassContext := do
  match (← state).classes with
  | context :: _ => return context
  | [] => throw .unbalancedClassContext

/-- End with the members of a class. -/
def popClass : Lowering ClassContext := do
  let context ← currentClass
  modifyState fun s => { s with classes := s.classes.tail }
  record {
    level := .trace
    target := "lowerjs_lowering::class_transformer"
    message := "pop class context"
    fields := [("class", .number context.node.index), ("has_super", .flag context.usesSuper),
      ("depth", .number (← state).classes.length)] }
  return context

/-- Note that a member of the class at hand has used `super`. -/
def markClass : Lowering Unit :=
  modifyState fun s => { s with
    classes := match s.classes with
      | context :: classes => { context with usesSuper := true } :: classes
      | [] => [] }

end Lowering

end Declass
