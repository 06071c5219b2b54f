import Declass.Lowering.Basic

/-!
# Expanding `super` in a member

Inside a member of a class `C`, the uses of `super` become calls of helpers that are given the
receiver, the class and a key:

```
super(a, ...b)      superCall(this, C, "constructor", [a, ...b])      in a constructor
super.m(a)          superCall(this, C, "m", [a])
super.x             superGet(this, C, "x")
super.x = v         superSet(this, C, "x", v)
super.x += v        superSet(this, C, "x", superGet(this, C, "x") + v)
super.x ||= v       superGet(this, C, "x") || superSet(this, C, "x", v)
++super.x           superSet(this, C, "x", +superGet(this, C, "x") + 1)
super[k()] *= v     ($__0 = k(), superSet(this, C, $__0, superGet(this, C, $__0) * v))
```

A computed key that is both read and written is evaluated once, into a temporary of the member.

Arrow functions share the `super` of the member around them. Other functions in the member have
none: a `super` there is reported and stays. Of a class in the member only the heritage belongs to
the member; the rest of it is expanded when that class is lowered.

## Main definitions

* `MemberKind`, `SuperSite` — what is known about the member at hand
* `SuperUse`, `SuperRole`, `Shape.superRole` — what a construct has to do with `super`
* `Lowering.expandNode`, `Lowering.expandMember`
-/

namespace Declass

/-- The kinds of class members. -/
inductive MemberKind where
  | constructor
  | method
  | accessor
  deriving DecidableEq, Repr

/-- The member whose `super`s are expanded. -/
structure SuperSite where
  /-- The expression that names the class. -/
  classRef : NodeId
  /-- The namespace of the helpers. -/
  runtimeName : String
  kind : MemberKind
  deriving DecidableEq, Repr

/-- The key in `super.name` or `super[index]`. -/
inductive MemberKey (α : Type) where
  | named (name : String)
  | computed (index : α)
  deriving DecidableEq, Repr

/-- An access `super.name` or `super[index]`. -/
structure SuperAccess (α : Type) where
  /-- The word `super`. -/
  word : α
  key : MemberKey α
  deriving DecidableEq, Repr

/-- A use of `super`. -/
inductive SuperUse (α : Type) where
  /-- `super(arguments)` -/
  | call (word : α) (arguments : List α)
  /-- `super.m(arguments)` -/
  | methodCall (access : SuperAccess α) (arguments : List α)
  /-- `super.x = value` -/
  | assign (access : SuperAccess α) (value : α)
  /-- `super.x += value`, with the operator `+` -/
  | compound (access : SuperAccess α) (operator : String) (value : α)
  /-- `++super.x`, with the operator `+` -/
  | update (access : SuperAccess α) (operator : String)
  /-- `super.x` -/
  | get (access : SuperAccess α)
  /-- `super` alone -/
  | bare (word : α)
  deriving DecidableEq, Repr

/-- The word `super` in a use. -/
def SuperUse.word {α : Type} : SuperUse α → α
  | .call word _ | .bare word => word
  | .methodCall access _ | .assign access _ | .compound access _ _ | .update access _
  | .get access => access.word

/-- What a construct has to do with `super`. -/
inductive SuperRole (α : Type) where
  /-- It is a use of `super`. -/
  | use (use : SuperUse α)
  /-- It is a function with a `super` of its own, that is, none. -/
  | nestedFunction
  /-- It is a class with members of its own. -/
  | nestedClass
  /-- It matters only for what it contains. -/
  | other
  deriving DecidableEq, Repr

/-- The operators that end in `=` and do not assign. -/
def comparisons : List String :=
  ["==", "===", "!=", "!==", "<=", ">="]

/-- The operator that a compound assignment applies: `+` for `+=`. -/
def compoundOperator? (operator : String) : Option String :=
  if operator ∈ comparisons then
    none
  else
    match operator.toList.reverse with
    | '=' :: c :: cs => some (String.ofList (c :: cs).reverse)
    | _ => none

/-- The operators that may leave their right side out. -/
def isLogical (operator : String) : Bool :=
  operator ∈ ["&&", "||", "??"]

/-- The operator that a prefix update applies. -/
def updateOperator? : String → Option String
  | "++" => some "+"
  | "--" => some "-"
  | _ => none

namespace Shape

variable {α : Type}

/-- Whether a shape is the word `super`. -/
def isSuper : Shape α → Bool
  | .superExpr => true
  | _ => false

/-- The access to a member of `super` that a shape is. The shape of a child is found with `look`. -/
def superAccess? (look : α → Option (Shape α)) : Shape α → Option (SuperAccess α)
  | .member target name =>
    if (look target).any isSuper then some ⟨target, .named name⟩ else none
  | .lookup target index =>
    if (look target).any isSuper then some ⟨target, .computed index⟩ else none
  | _ => none

/-- What the construct `self`, of the given shape, has to do with `super`. -/
def superRole (look : α → Option (Shape α)) (self : α) (shape : Shape α) : SuperRole α :=
  match shape with
  | .call callee arguments =>
    if (look callee).any isSuper then
      .use (.call callee arguments)
    else
      match (look callee).bind (superAccess? look) with
      | some access => .use (.methodCall access arguments)
      | none => .other
  | .binary left operator right =>
    match (look left).bind (superAccess? look) with
    | some access =>
      if operator = "=" then
        .use (.assign access right)
      else
        match compoundOperator? operator with
        | some operator => .use (.compound access operator right)
        | none => .other
    | none => .other
  | .unary operator operand =>
    match updateOperator? operator, (look operand).bind (superAccess? look) with
    | some operator, some access => .use (.update access operator)
    | _, _ => .other
  | .member .. | .lookup .. =>
    match superAccess? look shape with
    | some access => .use (.get access)
    | none => .other
  | .superExpr => .use (.bare self)
  | .functionDecl .. | .functionExpr .. | .method .. | .getter .. | .setter .. => .nestedFunction
  | .classDecl .. | .classExpr .. => .nestedClass
  | _ => .other

end Shape

/-- What the node `shape` at `id` has to do with `super`. -/
def Store.superRole (s : Store) (id : NodeId) (shape : Shape NodeId) : SuperRole NodeId :=
  shape.superRole s.shape? id

namespace Lowering

open Edit

/-- A key that can be written down several times. -/
inductive StableKey where
  | named (name : String)
  | temp (number : Nat)
  deriving DecidableEq, Repr

/-- Append a stable key. -/
def StableKey.emit : StableKey → Lowering NodeId
  | .named name => Build.string name
  | .temp number => Build.identifier (Temps.name number)

/-- Report a misplaced `super`. -/
def reportSuper (range : Option Range) (message : Message) : Lowering Unit := do
  record {
    level := .debug
    target := "lowerjs_lowering::super_transformer"
    message := "invalid super"
    fields := [("code", .number message.code), ("loc", .text (describe range))] }
  report range message
where
  describePosition (p : Position) : String :=
    "Position \x7b line: " ++ toString p.line ++ ", column: " ++ toString p.column ++ " \x7d"
  describe : Option Range → String
    | some range =>
      "Some(SourceRange \x7b start: " ++ describePosition range.start ++ ", end: "
        ++ describePosition range.stop ++ " \x7d)"
    | none => "None"

/-! ### Helper calls -/

/-- `helper(this, C, key, rest)` -/
def helperCall (site : SuperSite) (helper : Helper) (key : NodeId) (rest : List NodeId)
    (range : Option Range) : Lowering NodeId := do
  let callee ← Build.helper site.runtimeName helper
  let receiver ← Build.thisExpr
  let classRef ← synth (← node site.classRef).shape
  modifyState fun s => { s with usedSuper := true }
  append (.call callee (receiver :: classRef :: key :: rest)) range

/-- `superGet(this, C, key)` -/
def superGet (site : SuperSite) (key : NodeId) (range : Option Range) : Lowering NodeId :=
  helperCall site .superGet key [] range

/-- `superSet(this, C, key, value)` -/
def superSet (site : SuperSite) (key value : NodeId) (range : Option Range) : Lowering NodeId :=
  helperCall site .superSet key [value] range

/-- `superCall(this, C, key, [arguments])`, the arguments expanded with `visit`. -/
def superCall (site : SuperSite) (visit : NodeId → Lowering NodeId) (key : NodeId)
    (arguments : List NodeId) (range : Option Range) : Lowering NodeId := do
  let elements ← arguments.mapM visit
  let array ← Build.array elements
  helperCall site .superCall key [array] range

/-! ### Keys -/

/-- A key that is written down once. -/
def expandKey (visit : NodeId → Lowering NodeId) : MemberKey NodeId → Lowering NodeId
  | .named name => Build.string name
  | .computed index => visit index

/-- A key that is written down twice. A computed one is assigned to a temporary; the assignment is
returned beside the key. -/
def bindKey (visit : NodeId → Lowering NodeId) :
    MemberKey NodeId → Lowering (StableKey × Option NodeId)
  | .named name => return (.named name, none)
  | .computed index => do
    let index ← visit index
    let number ← allocate
    let target ← Build.identifier (Temps.name number)
    return (.temp number, some (← Build.assign target index))

/-- `(init, expression)`, or the expression alone if there is nothing to be evaluated before. -/
def sequence (init : Option NodeId) (expression : NodeId) (range : Option Range) :
    Lowering NodeId := do
  match init with
  | some init => append (.paren (← synth (.comma [init, expression]))) range
  | none => return expression

/-! ### Uses -/

/-- `super.x op= value`. An operator that may leave its right side out guards the assignment. -/
def expandCompound (site : SuperSite) (visit : NodeId → Lowering NodeId)
    (access : SuperAccess NodeId) (operator : String) (value : NodeId) (range : Option Range) :
    Lowering NodeId := do
  let (key, init) ← bindKey visit access.key
  let value ← visit value
  let inner := if init.isSome then none else range
  let current ← superGet site (← key.emit) none
  let target ← key.emit
  let expression ←
    if isLogical operator then do
      let set ← superSet site target value none
      append (.binary current operator set) inner
    else do
      let next ← Build.binary current operator value
      superSet site target next inner
  sequence init expression range

/-- `++super.x` and `--super.x`. The old value is read as a number. -/
def expandUpdate (site : SuperSite) (visit : NodeId → Lowering NodeId)
    (access : SuperAccess NodeId) (operator : String) (range : Option Range) :
    Lowering NodeId := do
  let (key, init) ← bindKey visit access.key
  let inner := if init.isSome then none else range
  let current ← superGet site (← key.emit) none
  let numeric ← synth (.unary "+" current)
  let one ← Build.number "1"
  let next ← Build.binary numeric operator one
  let expression ← superSet site (← key.emit) next inner
  sequence init expression range

/-- `super(arguments)` outside a constructor: the word stays, and the arguments are expanded. -/
def expandStrayCall (visit : NodeId → Lowering NodeId) (id word : NodeId)
    (arguments : List NodeId) (range : Option Range) : Lowering NodeId := do
  reportSuper (← range? word) .superCallOutsideConstructor
  let expanded ← arguments.mapM visit
  if expanded = arguments then
    return id
  append (.call word expanded) range

/-- Expand a use of `super` at `id` whose parts are expanded with `visit`. -/
def expandUse (site : SuperSite) (visit : NodeId → Lowering NodeId) (id : NodeId)
    (range : Option Range) : SuperUse NodeId → Lowering NodeId
  | .call word arguments => do
    if site.kind = .constructor then
      let key ← Build.string "constructor"
      superCall site visit key arguments range
    else
      expandStrayCall visit id word arguments range
  | .methodCall access arguments => do
    let key ← expandKey visit access.key
    superCall site visit key arguments range
  | .assign access value => do
    let key ← expandKey visit access.key
    let value ← visit value
    superSet site key value range
  | .compound access operator value => expandCompound site visit access operator value range
  | .update access operator => expandUpdate site visit access operator range
  | .get access => do
    let key ← expandKey visit access.key
    superGet site key range
  | .bare _ => do
    reportSuper range .bareSuper
    return id

/-- Expand the heritage of a class in the member. -/
def expandHeritage (visit : NodeId → Lowering NodeId) (id : NodeId) (node : Node) :
    Lowering NodeId := do
  match node.shape with
  | .classDecl name (some heritage) members =>
    let expanded ← visit heritage
    if expanded = heritage then
      return id
    append (.classDecl name (some expanded) members) node.range
  | .classExpr name (some heritage) members =>
    let expanded ← visit heritage
    if expanded = heritage then
      return id
    append (.classExpr name (some expanded) members) node.range
  | _ => return id

/-- Expand the `super`s at and below `id`, down to `height` levels. `nested` says whether a function
other than an arrow lies between the member and `id`. -/
def expandNode (site : SuperSite) : Nat → Bool → NodeId → Lowering NodeId
  | 0, _, _ => throw .unboundedNesting
  | height + 1, nested, id => do
    let node ← node id
    match (← store).superRole id node.shape with
    | .use use =>
      if nested then
        reportSuper (← range? use.word) .superOutsideMember
        return id
      else
        expandUse site (expandNode site height false) id node.range use
    | .nestedFunction => walk (expandNode site height true) id
    | .nestedClass => expandHeritage (expandNode site height nested) id node
    | .other => walk (expandNode site height nested) id

/-- Expand the `super`s of a member. Returns the new member and whether a helper is called in it. -/
def expandMember (site : SuperSite) (id : NodeId) : Lowering (NodeId × Bool) := do
  modifyState fun s => { s with usedSuper := false }
  let member ← walk (expandNode site (← store).walkBound false) id
  return (member, (← state).usedSuper)

end Lowering

end Declass
