import Declass.Lowering.Super

/-!
# Lowering classes

A class becomes a call of the helper `createClass`, which is given the members as an object, the
base class or `null`, and whether the class has a constructor and a base class of its own:

```
class B extends A                       var B = $runtime.createClass(
  m() { return super.m(); }               { m() { return $runtime.superCall(this, B, "m", []); },
                                            constructor: function (...args) {
                                              $runtime.superCall(this, B, "constructor", [...args]);
                                            } }, A, false, true);
```

A class expression has no name that its members could use for it. It is bound to a temporary if one
of its members uses `super`, and otherwise the temporary is given back:

```
f(class extends A {})                   f(($__0 = $runtime.createClass({ … }, A, false, true)));
```

Members are lowered in two steps, which share the temporaries of the member: the `super`s are
expanded, and then the classes inside the member are lowered. The second step works on the nodes
that the first has made, so its depth is bounded anew at each member; how many classes can be nested
in one another is bounded once, at the start.

## Main definitions

* `Lowering.lowerClass`, `Lowering.lowerNode`, `Lowering.lowerMember`
* `Lowering.lowerProgram` — lower every class of a program
-/

namespace Declass

/-- The kind of the class member that a shape is. -/
def MemberKind.ofShape? {α : Type} : Shape α → Option MemberKind
  | .method name .. => some (if name.isConstructor then .constructor else .method)
  | .getter .. | .setter .. => some .accessor
  | _ => none

namespace Lowering

open Edit

/-- How a member is lowered, given its kind. -/
abbrev MemberLowering : Type :=
  MemberKind → NodeId → Lowering NodeId

/-! ### Members -/

/-- `constructor(parameters) body` becomes `constructor: function (parameters) body`. -/
def constructorProperty (id : NodeId) : Lowering NodeId := do
  let node ← node id
  match node.shape with
  | .method _ parameters body =>
    let function ← append (.functionExpr none parameters body) node.range
    append (.property (.identifier "constructor") function) node.range
  | other => throw (.unexpectedNode "PropertyMethodAssignment" other.kind)

/-- The constructor of a class that has none. With a base class it passes its arguments on. -/
def defaultConstructor (hasBase : Bool) : Lowering NodeId := do
  if hasBase then
    let parameter ← Build.restParameter "args"
    let callee ← Build.superExpr
    let arguments ← Build.identifier "args"
    let spread ← Build.spread arguments
    let call ← Build.call callee [spread]
    let statement ← Build.exprStatement call
    let body ← Build.block [statement]
    synth (.method (.identifier "constructor") [parameter] body)
  else
    let body ← Build.block []
    synth (.method (.identifier "constructor") [] body)

/-- Lower one member to a property of the object of members. -/
def lowerProperty (lowerMember : MemberLowering) (id : NodeId) :
    Lowering (MemberKind × NodeId) := do
  let node ← node id
  match MemberKind.ofShape? node.shape with
  | some .constructor =>
    let lowered ← lowerMember .constructor id
    return (.constructor, ← constructorProperty lowered)
  | some kind => return (kind, ← lowerMember kind id)
  | none => throw (.unexpectedMember node.shape.kind node.range)

/-- Lower the members of the class at hand. Returns the properties of the object of members and
whether the class has a constructor of its own. -/
def lowerMembers (lowerMember : MemberLowering) (members : List NodeId) (hasBase : Bool) :
    Lowering (List NodeId × Bool) := do
  let lowered ← members.mapM (lowerProperty lowerMember)
  let properties := lowered.map Prod.snd
  if lowered.any (·.1 == .constructor) then
    return (properties, true)
  let constructor ← lowerMember .constructor (← defaultConstructor hasBase)
  return (properties ++ [← constructorProperty constructor], false)

/-! ### Classes -/

/-- Lower a class to a call of `createClass`. Inside the members `nameExpr` names the class; the
heritage stands outside it. Returns the call and whether a member of the class uses `super`. -/
def lowerClass (options : Options) (lowerMember : MemberLowering)
    (visit : NodeId → Lowering NodeId) (id nameExpr : NodeId) (heritage : Option NodeId)
    (members : List NodeId) (range : Option Range) : Lowering (NodeId × Bool) := do
  let base ← heritage.mapM visit
  pushClass id nameExpr
  let lowered ← attempt (lowerMembers lowerMember members base.isSome)
  let context ← popClass
  let (properties, hasConstructor) ← settle lowered
  let object ← Build.object properties
  let baseArgument ← match base with
    | some base => pure base
    | none => Build.null
  let hasConstructorArgument ← Build.boolean hasConstructor
  let hasBaseArgument ← Build.boolean base.isSome
  let callee ← Build.helper options.runtimeName .createClass
  let call ← append
    (.call callee [object, baseArgument, hasConstructorArgument, hasBaseArgument]) range
  record {
    level := .debug
    target := "lowerjs_lowering::class_transformer"
    message := "lowered class"
    fields := [("class", .number id.index), ("has_constructor", .flag hasConstructor),
      ("has_extends", .flag base.isSome), ("has_super", .flag context.usesSuper)] }
  return (call, context.usesSuper)

/-- `class name …` becomes a variable statement. -/
def lowerClassDecl (options : Options) (lowerMember : MemberLowering)
    (visit : NodeId → Lowering NodeId) (id name : NodeId) (heritage : Option NodeId)
    (members : List NodeId) (range : Option Range) : Lowering NodeId := do
  let className ← settle ((← store).identifierText name)
  let nameExpr ← Build.identifier className
  let (call, _) ← lowerClass options lowerMember visit id nameExpr heritage members range
  let declarator ← append (.declarator name (some call)) range
  append (.varStatement (if options.blockBinding then .letWord else .varWord) [declarator]) range

/-- A class expression becomes a call, assigned to a temporary if the members need to name it. -/
def lowerClassExpr (options : Options) (lowerMember : MemberLowering)
    (visit : NodeId → Lowering NodeId) (id : NodeId) (heritage : Option NodeId)
    (members : List NodeId) (range : Option Range) : Lowering NodeId := do
  let number ← allocate
  let nameExpr ← Build.identifier (Temps.name number)
  let (call, usesSuper) ← lowerClass options lowerMember visit id nameExpr heritage members range
  if usesSuper then
    let target ← Build.identifier (Temps.name number)
    let assignment ← Build.assign target call
    append (.paren assignment) range
  else
    release number
    return call

/-! ### Trees -/

/-- Lower the classes at and below `id`, down to `height` levels, their members with `lowerMember`.
Programs and functions have temporaries of their own. -/
def lowerNode (options : Options) (lowerMember : MemberLowering) : Nat → NodeId → Lowering NodeId
  | 0, _ => throw .unboundedNesting
  | height + 1, id => do
    let visit := lowerNode options lowerMember height
    let node ← node id
    match node.shape with
    | .classDecl name heritage members =>
      lowerClassDecl options lowerMember visit id name heritage members node.range
    | .classExpr _ heritage members =>
      lowerClassExpr options lowerMember visit id heritage members node.range
    | .program _ => inTempScope (walk visit id)
    | shape => if shape.isFunctionLike then inTempScope (walk visit id) else walk visit id

/-- Expand the `super`s of a member of the class at hand. -/
def expandOwnMember (options : Options) (kind : MemberKind) (id : NodeId) : Lowering NodeId := do
  let context ← currentClass
  let (member, usedSuper) ← expandMember ⟨context.nameExpr, options.runtimeName, kind⟩ id
  if usedSuper then
    markClass
  return member

/-- Lower a member of the class at hand, with classes nested at most `nesting` deep in it. -/
def lowerMember (options : Options) : Nat → MemberLowering
  | 0, _, _ => throw .unboundedNesting
  | nesting + 1, kind, id => inTempScope do
    let member ← expandOwnMember options kind id
    walk (lowerNode options (lowerMember options nesting) (← store).walkBound) member

/-- The stretch of a run that lowers the program at `id`. -/
def programSpan (id : NodeId) : Log.Span where
  level := .debug
  target := "lowerjs_lowering::class_transformer"
  name := "transform_program"
  fields := [("program", .number id.index)]

/-- Lower every class of the program at `id`. -/
def lowerProgram (options : Options) (id : NodeId) : Lowering NodeId :=
  inSpan (programSpan id) do
    let bound := (← store).walkBound
    let lowered ← lowerNode options (lowerMember options bound) bound id
    record {
      level := .debug
      target := "lowerjs_lowering::class_transformer"
      message := "class lowering done"
      fields := [("changed", .flag (lowered ≠ id))] }
    return lowered

end Lowering

end Declass
