import Declass.Journal
import Declass.Code.Store
import Declass.Scope.Globals
import Declass.Scope.Table

/-!
# Checking for undefined names

Every name that a lowered program uses must be declared in a scope around the use, or be one of the
ambient names. What is declared where:

```
construct              in its own scope                      in the scope around it
program                the ambient names
function declaration   its name, `arguments`, parameters     its name, ahead of its statement list
function expression    its name, `arguments`, parameters
arrow, method          `arguments`, parameters
getter
setter                 its parameter
catch clause           the caught name
```

Blocks have no scope. A `var` goes to the innermost scope that is not a catch clause. An undefined
name is reported once, where it is first used. A generated name that is undefined is a fault, and so
is a class or a `let` or `const` statement: these were to be lowered before.

## Main definitions

* `Check` — the visit of a program
* `Check.visit`, `Check.program`
-/

namespace Declass

/-- The state of a check. -/
structure CheckState where
  scopes : Scopes := {}
  journal : Journal := {}
  deriving DecidableEq, Repr

/-- A computation that keeps track of scopes and may fail. -/
abbrev Check : Type → Type :=
  ExceptT Fault (StateM CheckState)

namespace Check

/-- Note an event. -/
def record (event : Log.Event) : Check Unit :=
  modify fun s => { s with journal := s.journal.record event }

/-- Edit the scopes, or fail as the edit does. -/
def onScopes {α : Type} (edit : ScopeEdit α) : Check α :=
  ExceptT.mk fun s =>
    let (outcome, scopes) := edit.run.run s.scopes
    (outcome, { s with scopes })

/-- Open a scope. -/
def push (kind : ScopeKind) : Check ScopeId := do
  let id ← onScopes (.push kind)
  record {
    level := .trace
    target := "lowerjs_checker::scope"
    message := "push scope"
    fields := [("scope", .number id.index), ("kind", .text kind.name)] }
  return id

/-- Close a scope. Returns the uses that no scope is left to resolve. -/
def pop (id : ScopeId) : Check (List Reference) := do
  let closing ← onScopes (.pop id)
  record {
    level := .trace
    target := "lowerjs_checker::scope"
    message := "pop scope"
    fields := [("scope", .number id.index), ("unresolved", .number closing.unresolved.length)] }
  match closing.moved with
  | some (parent, uses) => uses.forM fun use => record {
      level := .trace
      target := "lowerjs_checker::scope"
      message := Log.promotion
      fields := [("name", .text use.name), ("scope", .number parent.index)] }
  | none => pure ()
  return closing.escaped

/-- Do something in a scope of its own. A failure leaves the scope open. -/
def inScope (kind : ScopeKind) (act : Check Unit) : Check Unit := do
  let id ← push kind
  act
  let _ ← pop id

/-- Declare a name in the innermost scope. -/
def declare (name : String) : Check Unit :=
  onScopes (.declare name)

/-- Declare the name of a binding in the innermost scope. -/
def declareBinding (store : Store) (binding : NodeId) : Check Unit := do
  match store.identifierText binding with
  | .ok name => declare name
  | .error fault => throw fault

/-- Declare a name as `var` does. -/
def declareVar (name : String) : Check Unit :=
  onScopes (.declareVar name)

/-- Declare the name of a binding as `var` does. -/
def declareVarBinding (store : Store) (binding : NodeId) : Check Unit := do
  match store.identifierText binding with
  | .ok name => declareVar name
  | .error fault => throw fault

/-- Use a name in the innermost scope. -/
def reference (use : Reference) : Check Unit :=
  onScopes (.reference use)

/-- The node at `id`. -/
def node (store : Store) (id : NodeId) : Check Node :=
  match store.node id with
  | .ok node => pure node
  | .error fault => throw fault

/-- Declare the name of a statement that is a function declaration. -/
def hoist (store : Store) (statement : NodeId) : Check Unit := do
  match (← node store statement).shape with
  | .functionDecl name .. => declareVarBinding store name
  | _ => pure ()

/-- Visit a list of statements: first the names of its functions, then the statements. -/
def statements (store : Store) (visit : NodeId → Check Unit) (statements : List NodeId) :
    Check Unit := do
  statements.forM (hoist store)
  statements.forM visit

/-- Visit a function with the name it has for itself. -/
def function (store : Store) (visit : NodeId → Check Unit) (name : Option NodeId)
    (parameters : List NodeId) (body : NodeId) : Check Unit :=
  inScope .function do
    name.forM (declareBinding store)
    declare "arguments"
    parameters.forM visit
    visit body

/-- Visit one construct whose children are visited with `visit`. -/
def construct (store : Store) (visit : NodeId → Check Unit) (node : Node) : Check Unit :=
  match node.shape with
  | .program list | .block list => statements store visit list
  | .varStatement keyword declarators =>
    if keyword.isBlockScoped then
      throw (.blockScopedDeclaration keyword.text node.range)
    else
      declarators.forM visit
  | .declarator name value => do
    declareVarBinding store name
    value.forM visit
  | .functionDecl name parameters body => do
    declareVarBinding store name
    function store visit (some name) parameters body
  | .functionExpr name parameters body => function store visit name parameters body
  | .arrow parameters body | .method _ parameters body =>
    function store visit none parameters body
  | .getter _ body => inScope .accessor (visit body)
  | .setter _ incoming body => inScope .accessor do
    visit incoming
    visit body
  | .catchClause caught body => inScope .catchClause do
    declareBinding store caught
    visit body
  | .parameter name value _ => do
    declareBinding store name
    value.forM visit
  | .identifier name => reference ⟨name, node.range⟩
  | .classDecl .. | .classExpr .. => throw (.unloweredClass node.range)
  | .binding _ => pure ()
  | shape => shape.children.forM visit

/-- Visit the node at `id` and what is below it, down to `height` levels. -/
def visit (store : Store) : Nat → NodeId → Check Unit
  | 0, _ => throw .unboundedNesting
  | height + 1, id => do
    construct store (visit store height) (← node store id)

/-- The uses of undefined names in the program at `id`. No tree in the store is higher than the
store is large, so every level is visited. -/
def unresolved (ambient : List String) (store : Store) (id : NodeId) : Check (List Reference) := do
  modify fun s => { s with scopes := {} }
  let root ← push .root
  ambient.forM declare
  visit store (store.size + 1) id
  pop root

/-- The smallest of a list of names. -/
def smallest? : List String → Option String
  | [] => none
  | name :: names => some (names.foldl (fun best next => if best ≤ next then best else next) name)

/-- Report the undefined names of the program at `id`, in the order of the text. -/
def report (ambient : List String) (store : Store) (id : NodeId) : Check Unit := do
  let unresolved ← unresolved ambient store id
  match smallest? ((unresolved.filter (·.range.isNone)).map Reference.name) with
  | some name => throw (.unboundSynthetic name)
  | none =>
    let sorted := unresolved.mergeSort Reference.ble
    record {
      level := .debug
      target := "lowerjs_checker::free_variables"
      message := "unresolved references"
      fields := [("count", .number sorted.length)] }
    for use in sorted do
      modify fun s => { s with journal := s.journal.report use.range .nameNotDefined [use.name] }

/-- The stretch of a run that checks the program at `id`. -/
def programSpan (id : NodeId) : Log.Span where
  level := .debug
  target := "lowerjs_checker::free_variables"
  name := "check_program"
  fields := [("program", .number id.index)]

/-- Check the program at `id`. A failure reports nothing. -/
def program (ambient : List String) (store : Store) (id : NodeId) (journal : Journal) :
    Except Fault Unit × Journal :=
  let start : CheckState := { journal := journal.enter (programSpan id) }
  let (outcome, final) := (report ambient store id).run.run start
  (outcome, final.journal.leave)

end Check

end Declass
