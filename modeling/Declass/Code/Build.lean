import Declass.Code.Edit

/-!
# Building generated code

Edits that append the nodes of small pieces of generated code, parts before the whole, and return
the index of the whole. None of these nodes has a range.

## Main definitions

* `Build.identifier`, `Build.string`, `Build.assign`, `Build.declareAll`, … — one edit per construct
* `Helper`, `Build.helper` — the functions that generated code calls, as members of the namespace
  that holds them
-/

namespace Declass

/-- The functions that generated code calls. -/
inductive Helper where
  /-- `createClass(members, base, hasConstructor, hasBase)` -/
  | createClass
  /-- `superCall(receiver, class, key, arguments)` -/
  | superCall
  /-- `superGet(receiver, class, key)` -/
  | superGet
  /-- `superSet(receiver, class, key, value)` -/
  | superSet
  deriving DecidableEq, Repr

/-- The name of a helper in its namespace. -/
def Helper.name : Helper → String
  | .createClass => "createClass"
  | .superCall => "superCall"
  | .superGet => "superGet"
  | .superSet => "superSet"

namespace Build

open Edit

variable {σ : Type}

/-- A use of `name`. -/
def identifier (name : String) : Edit σ NodeId :=
  synth (.identifier name)

/-- A declaration of `name`. -/
def binding (name : String) : Edit σ NodeId :=
  synth (.binding name)

/-- The parameter `name`. -/
def parameter (name : String) : Edit σ NodeId := do
  let name ← binding name
  synth (.parameter name none false)

/-- The parameter `...name`. -/
def restParameter (name : String) : Edit σ NodeId := do
  let name ← binding name
  synth (.parameter name none true)

/-- `this` -/
def thisExpr : Edit σ NodeId :=
  synth .thisExpr

/-- `super` -/
def superExpr : Edit σ NodeId :=
  synth .superExpr

/-- `null` -/
def null : Edit σ NodeId :=
  synth (.literal .null)

/-- `true` or `false` -/
def boolean (value : Bool) : Edit σ NodeId :=
  synth (.literal (.boolean value))

/-- A number, given by its digits. -/
def number (digits : String) : Edit σ NodeId :=
  synth (.literal (.number digits))

/-- A string, given by its value. -/
def string (value : String) : Edit σ NodeId :=
  synth (.literal (.string value))

/-- `callee(arguments)` -/
def call (callee : NodeId) (arguments : List NodeId) : Edit σ NodeId :=
  synth (.call callee arguments)

/-- `target.name` -/
def member (target : NodeId) (name : String) : Edit σ NodeId :=
  synth (.member target name)

/-- `left operator right` -/
def binary (left : NodeId) (operator : String) (right : NodeId) : Edit σ NodeId :=
  synth (.binary left operator right)

/-- `target = value` -/
def assign (target value : NodeId) : Edit σ NodeId :=
  binary target "=" value

/-- `(expression)` -/
def paren (expression : NodeId) : Edit σ NodeId :=
  synth (.paren expression)

/-- `...expression` -/
def spread (expression : NodeId) : Edit σ NodeId :=
  synth (.spread expression)

/-- `[elements]` -/
def array (elements : List NodeId) : Edit σ NodeId :=
  synth (.array elements)

/-- An object with the given properties. -/
def object (properties : List NodeId) : Edit σ NodeId :=
  synth (.object properties)

/-- `name: value` -/
def property (name : String) (value : NodeId) : Edit σ NodeId :=
  synth (.property (.identifier name) value)

/-- Statements between braces. -/
def block (statements : List NodeId) : Edit σ NodeId :=
  synth (.block statements)

/-- `expression;` -/
def exprStatement (expression : NodeId) : Edit σ NodeId :=
  synth (.exprStatement expression)

/-- `return expression;` -/
def returnStatement (expression : Option NodeId) : Edit σ NodeId :=
  synth (.returnStatement expression)

/-- `function (parameters) body` -/
def functionExpr (parameters : List NodeId) (body : NodeId) : Edit σ NodeId :=
  synth (.functionExpr none parameters body)

/-- A variable statement with one name. -/
def declare (keyword : VarKeyword) (name : String) (value : Option NodeId) : Edit σ NodeId := do
  let name ← binding name
  let declarator ← synth (.declarator name value)
  synth (.varStatement keyword [declarator])

/-- A `var` statement that declares names without values. -/
def declareAll (names : List String) : Edit σ NodeId := do
  let declarators ← names.mapM fun name => do
    let name ← binding name
    synth (.declarator name none)
  synth (.varStatement .varWord declarators)

/-- `namespace.helper` -/
def helper (space : String) (helper : Helper) : Edit σ NodeId := do
  let space ← identifier space
  member space helper.name

end Build

end Declass
