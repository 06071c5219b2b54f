import Declass.Lowering.Class
import Declass.Proofs.Tree

/-!
# Lowering as a relation between trees

This module says what the lowering of classes does to trees, without a store and without the order
in which nodes are made. `Expands` is the first step, the expansion of `super` in a member, and
`Lowers` is the lowering of classes, which uses it for each member of a class.

Both relate a list of trees to the list of what becomes of them, one for one, and an account before
to an account after. Having lists on both sides makes one relation out of a tree, its children and
the parts of a use of `super`; a proof about it is one induction. A list of one tree has a rule for
each construct; longer lists are taken apart by `cons`, and no list has two rules.

A lowering that fails has a relation of its own, `Halts`, which leads to the fault and to the
account at that moment. `Tree.faults` are the faults of the classes in a tree with a name that is
none or with a member of another kind; the first of them ends the lowering.

## Main definitions

* `Account` — what a lowering keeps track of beside the code
* `Site`, `Site.Direct`, `Site.Bound` — the code that a use of `super` becomes
* `Expands`, `Lowers`, `Halts`
* `Tree.gather`, `Tree.faults`, `Tree.classDepths`
-/

namespace Declass

/-- What a lowering keeps track of beside the code. -/
structure Account where
  temps : Temps
  /-- Whether a member of the class at hand has used `super`. -/
  used : Bool
  bag : Bag

namespace Account

/-- Report a problem of the program. -/
def report (a : Account) (range : Option Range) (message : Message) : Account :=
  { a with bag := a.bag.report range message [] }

/-- Set whether `super` has been used. -/
def withUsed (a : Account) (used : Bool) : Account :=
  { a with used }

/-- Open a scope of temporaries. -/
def openScope (a : Account) : Account :=
  { a with temps := a.temps.push }

/-- What the innermost scope of temporaries holds. -/
def held (a : Account) : List Nat :=
  a.temps.pop.1

/-- Close the innermost scope of temporaries. -/
def closeScope (a : Account) : Account :=
  { a with temps := a.temps.pop.2 }

/-- The number of the temporary that is allocated next. -/
def fresh (a : Account) : Nat :=
  a.temps.allocate.1

/-- Allocate a temporary. -/
def allocate (a : Account) : Account :=
  { a with temps := a.temps.allocate.2 }

/-- Give a temporary back. -/
def release (a : Account) (number : Nat) : Account :=
  { a with temps := (a.temps.release number).2 }

end Account

/-! ### Generated code -/

namespace Tree

/-- A generated construct. -/
def gen (shape : Shape Tree) : Tree :=
  .node none shape none

/-- A generated use of a name. -/
def ident (name : String) : Tree :=
  gen (.identifier name)

/-- A use of a temporary. -/
def temp (number : Nat) : Tree :=
  ident (Temps.name number)

/-- A generated string. -/
def text (value : String) : Tree :=
  gen (.literal (.string value))

/-- `true` or `false` -/
def boolean (value : Bool) : Tree :=
  gen (.literal (.boolean value))

/-- `target = value` -/
def assign (target value : Tree) : Tree :=
  gen (.binary target "=" value)

/-- `namespace.helper` -/
def helper (space : String) (helper : Helper) : Tree :=
  gen (.member (ident space) helper.name)

/-- The tree with other children. -/
def withChildren (t : Tree) (children : List Tree) : Tree :=
  .node t.origin (t.shape.refill children) t.range

@[simp] theorem withChildren_children (t : Tree) : t.withChildren t.shape.children = t := by
  simp [withChildren]

/-- What a tree has to do with `super`. -/
def superRole (t : Tree) : SuperRole Tree :=
  t.shape.superRole (fun c => some c.shape) t

/-! ### Declarations of temporaries -/

/-- `var $__0, $__1;` -/
def declareTemps (temps : List Nat) : Tree :=
  gen (.varStatement .varWord
    (temps.map fun number => gen (.declarator (gen (.binding (Temps.name number))) none)))

/-- The statements of the body of a function. A body that is an expression is returned. -/
def statements (body : Tree) : List Tree :=
  match body.shape with
  | .block statements => statements
  | _ => [.node none (.returnStatement (some body)) body.range]

/-- The body of a function with a declaration in front. -/
def prepend (declaration body : Tree) : Tree :=
  .node none (.block (declaration :: body.statements)) body.range

end Tree

namespace Shape

variable {α : Type}

/-- Apply `f` to the body of a function. -/
def mapBody (f : α → α) : Shape α → Shape α
  | .functionDecl name parameters body => .functionDecl name parameters (f body)
  | .functionExpr name parameters body => .functionExpr name parameters (f body)
  | .arrow parameters body => .arrow parameters (f body)
  | .method name parameters body => .method name parameters (f body)
  | .getter name body => .getter name (f body)
  | .setter name incoming body => .setter name incoming (f body)
  | other => other

/-- Whether a shape is a class. -/
def isClass : Shape α → Bool
  | .classDecl .. | .classExpr .. => true
  | _ => false

theorem isClass_map {β : Type} (f : α → β) (s : Shape α) : (s.map f).isClass = s.isClass := by
  cases s <;> rfl

/-- Whether a construct has temporaries of its own: programs and functions do. -/
def ownsTemps : Shape α → Bool
  | .program _ => true
  | shape => shape.isFunctionLike

end Shape

/-- A program or a function with a declaration at the top of its body. -/
def Shape.declaring (declaration : Tree) : Shape Tree → Shape Tree
  | .program statements => .program (declaration :: statements)
  | shape => shape.mapBody (Tree.prepend declaration)

/-- A program or a function with temporaries declared at the top of its body, if there are any. -/
def Tree.declaring (t : Tree) (temps : List Nat) : Tree :=
  if temps = [] then t else .node none (t.shape.declaring (declareTemps temps)) t.range

/-! ### Uses of `super` -/

/-- The parts of a key that are expanded. -/
def MemberKey.operands {α : Type} : MemberKey α → List α
  | .named _ => []
  | .computed index => [index]

/-- The parts of a use of `super` that are expanded, in the order of evaluation. -/
def SuperUse.operands {α : Type} : SuperUse α → List α
  | .call _ arguments => arguments
  | .methodCall access arguments => access.key.operands ++ arguments
  | .assign access value | .compound access _ value => access.key.operands ++ [value]
  | .update access _ | .get access => access.key.operands
  | .bare _ => []

/-- The member whose `super`s are expanded, its class given by a name. -/
structure Site where
  className : String
  runtimeName : String
  kind : MemberKind

namespace Site

open Declass.Tree

variable (site : Site)

/-- `helper(this, C, arguments)` -/
def helperCall (helper : Helper) (arguments : List Tree) (range : Option Range) : Tree :=
  .node none (.call (.helper site.runtimeName helper)
    (gen .thisExpr :: ident site.className :: arguments)) range

/-- `superGet(this, C, key)` -/
def superGet (key : Tree) (range : Option Range) : Tree :=
  site.helperCall .superGet [key] range

/-- `superSet(this, C, key, value)` -/
def superSet (key value : Tree) (range : Option Range) : Tree :=
  site.helperCall .superSet [key, value] range

/-- `superCall(this, C, key, [arguments])` -/
def superCall (key : Tree) (arguments : List Tree) (range : Option Range) : Tree :=
  site.helperCall .superCall [key, gen (.array arguments)] range

/-- `super[key] op= value` for a key that may be written down twice. -/
def compound (key : Tree) (operator : String) (value : Tree) (range : Option Range) : Tree :=
  if isLogical operator then
    .node none (.binary (site.superGet key none) operator (site.superSet key value none)) range
  else
    site.superSet key (gen (.binary (site.superGet key none) operator value)) range

/-- `++super[key]` for a key that may be written down twice. -/
def update (key : Tree) (operator : String) (range : Option Range) : Tree :=
  let current := gen (.unary "+" (site.superGet key none))
  site.superSet key (gen (.binary current operator (gen (.literal (.number "1"))))) range

/-- How a key is written, given its operands in expanded form. -/
inductive Key : MemberKey Tree → List Tree → Tree → Prop where
  | named {name : String} : Key (.named name) [] (.text name)
  | computed {index key : Tree} : Key (.computed index) [key] key

/-- What becomes of a use of `super` that needs no temporary, given its operands in expanded
form. -/
inductive Direct (range : Option Range) : SuperUse Tree → List Tree → Tree → Prop where
  | call {word : Tree} {arguments arguments' : List Tree} (kind : site.kind = .constructor) :
      Direct range (.call word arguments) arguments'
        (site.superCall (.text "constructor") arguments' range)
  | methodCall {access : SuperAccess Tree} {arguments keys arguments' : List Tree} {key : Tree}
      (written : Key access.key keys key) :
      Direct range (.methodCall access arguments) (keys ++ arguments')
        (site.superCall key arguments' range)
  | assign {access : SuperAccess Tree} {value key value' : Tree} {keys : List Tree}
      (written : Key access.key keys key) :
      Direct range (.assign access value) (keys ++ [value']) (site.superSet key value' range)
  | get {access : SuperAccess Tree} {key : Tree} {keys : List Tree}
      (written : Key access.key keys key) :
      Direct range (.get access) keys (site.superGet key range)
  | compound {word value value' : Tree} {name operator : String} :
      Direct range (.compound ⟨word, .named name⟩ operator value) [value']
        (site.compound (.text name) operator value' range)
  | update {word : Tree} {name operator : String} :
      Direct range (.update ⟨word, .named name⟩ operator) []
        (site.update (.text name) operator range)

/-- `($__0 = key, expression)` -/
def sequence (number : Nat) (key expression : Tree) (range : Option Range) : Tree :=
  .node none (.paren (gen (.comma [.assign (temp number) key, expression]))) range

/-- What becomes of a use of `super` with a computed key that is read and written. The key is kept
in the temporary `number`. -/
inductive Bound (range : Option Range) (number : Nat) :
    SuperUse Tree → Tree → List Tree → Tree → Prop where
  | compound {word index value key value' : Tree} {operator : String} :
      Bound range number (.compound ⟨word, .computed index⟩ operator value) key [value']
        (sequence number key (site.compound (temp number) operator value' none) range)
  | update {word index key : Tree} {operator : String} :
      Bound range number (.update ⟨word, .computed index⟩ operator) key []
        (sequence number key (site.update (temp number) operator none) range)

end Site

/-- The expansion of `super` in the trees of a member. The Boolean says whether a function other
than an arrow lies between the member and the trees. -/
inductive Expands (site : Site) : Bool → Account → List Tree → List Tree → Account → Prop where
  | nil {nested : Bool} {a : Account} : Expands site nested a [] [] a
  | cons {nested : Bool} {a a₁ a' : Account} {t t' u : Tree} {ts ts' : List Tree}
      (head : Expands site nested a [t] [t'] a₁)
      (tail : Expands site nested a₁ (u :: ts) ts' a') :
      Expands site nested a (t :: u :: ts) (t' :: ts') a'
  | walk {nested : Bool} {a a' : Account} {t : Tree} {cs : List Tree}
      (role : t.superRole = .other)
      (below : Expands site nested a t.shape.children cs a') :
      Expands site nested a [t] [t.withChildren cs] a'
  | enter {nested : Bool} {a a' : Account} {t : Tree} {cs : List Tree}
      (role : t.superRole = .nestedFunction)
      (below : Expands site true a t.shape.children cs a') :
      Expands site nested a [t] [t.withChildren cs] a'
  | classDecl {nested : Bool} {a a' : Account} {o : Option NodeId} {name : Tree}
      {heritage heritage' : Option Tree} {members : List Tree} {r : Option Range}
      (below : Expands site nested a heritage.toList heritage'.toList a') :
      Expands site nested a [.node o (.classDecl name heritage members) r]
        [.node o (.classDecl name heritage' members) r] a'
  | classExpr {nested : Bool} {a a' : Account} {o : Option NodeId} {name : Option Tree}
      {heritage heritage' : Option Tree} {members : List Tree} {r : Option Range}
      (below : Expands site nested a heritage.toList heritage'.toList a') :
      Expands site nested a [.node o (.classExpr name heritage members) r]
        [.node o (.classExpr name heritage' members) r] a'
  | misplaced {a : Account} {t : Tree} {use : SuperUse Tree} (role : t.superRole = .use use) :
      Expands site true a [t] [t] (a.report use.word.range .superOutsideMember)
  | bare {a : Account} {t word : Tree} (role : t.superRole = .use (.bare word)) :
      Expands site false a [t] [t] (a.report t.range .bareSuper)
  | stray {a a' : Account} {t word : Tree} {arguments arguments' : List Tree}
      (role : t.superRole = .use (.call word arguments)) (kind : site.kind ≠ .constructor)
      (below : Expands site false (a.report word.range .superCallOutsideConstructor)
        arguments arguments' a') :
      Expands site false a [t] [.node none (.call word arguments') t.range] a'
  | direct {a a' : Account} {t t' : Tree} {use : SuperUse Tree} {operands : List Tree}
      (role : t.superRole = .use use)
      (below : Expands site false a use.operands operands a')
      (code : site.Direct t.range use operands t') :
      Expands site false a [t] [t'] (a'.withUsed true)
  | bound {a a₁ a' : Account} {t t' index key : Tree} {use : SuperUse Tree}
      {rest rest' : List Tree} (role : t.superRole = .use use)
      (operands : use.operands = index :: rest)
      (keyed : Expands site false a [index] [key] a₁)
      (below : Expands site false a₁.allocate rest rest' a')
      (code : site.Bound t.range a₁.fresh use key rest' t') :
      Expands site false a [t] [t'] (a'.withUsed true)

/-! ### Classes -/

namespace Tree

/-- Whether one of the members of a class is its constructor. -/
def hasConstructor (members : List Tree) : Bool :=
  members.any fun member => MemberKind.ofShape? member.shape == some .constructor

/-- The constructor of a class that has none. -/
def defaultConstructor (hasBase : Bool) : Tree :=
  if hasBase then
    let parameter := gen (.parameter (gen (.binding "args")) none true)
    let call := gen (.call (gen .superExpr) [gen (.spread (ident "args"))])
    gen (.method (.identifier "constructor") [parameter] (gen (.block [gen (.exprStatement call)])))
  else
    gen (.method (.identifier "constructor") [] (gen (.block [])))

/-- The members of a class, with a constructor in any case. -/
def withConstructor (members : List Tree) (hasBase : Bool) : List Tree :=
  if hasConstructor members then members else members ++ [defaultConstructor hasBase]

/-- A method as the property `constructor`. -/
def constructorProperty (t : Tree) : Tree :=
  match t.shape with
  | .method _ parameters body =>
    .node none (.property (.identifier "constructor")
      (.node none (.functionExpr none parameters body) t.range)) t.range
  | _ => t

/-- A lowered member as a property of the object of members. -/
def asProperty (kind : MemberKind) (t : Tree) : Tree :=
  if kind = .constructor then t.constructorProperty else t

/-- The call that makes a class. -/
def createClass (options : Options) (properties : List Tree) (hasConstructor : Bool)
    (base : Option Tree) (range : Option Range) : Tree :=
  .node none (.call (helper options.runtimeName .createClass)
    [gen (.object properties), base.getD (gen (.literal .null)), boolean hasConstructor,
      boolean base.isSome]) range

/-- The variable statement that a class declaration becomes. -/
def declareClass (options : Options) (name call : Tree) (range : Option Range) : Tree :=
  .node none (.varStatement (if options.blockBinding then .letWord else .varWord)
    [.node none (.declarator name (some call)) range]) range

end Tree

/-- The lowering of classes. With `none` the trees are code of any kind; with `some c` they are the
members of a class that is named `c` inside them. -/
inductive Lowers (options : Options) :
    Option String → Account → List Tree → List Tree → Account → Prop where
  | nil {c : Option String} {a : Account} : Lowers options c a [] [] a
  | cons {c : Option String} {a a₁ a' : Account} {t t' u : Tree} {ts ts' : List Tree}
      (head : Lowers options c a [t] [t'] a₁) (tail : Lowers options c a₁ (u :: ts) ts' a') :
      Lowers options c a (t :: u :: ts) (t' :: ts') a'
  | walk {a a' : Account} {t : Tree} {cs : List Tree} (plain : t.shape.isClass = false)
      (shared : t.shape.ownsTemps = false)
      (below : Lowers options none a t.shape.children cs a') :
      Lowers options none a [t] [t.withChildren cs] a'
  | scope {a a' : Account} {t : Tree} {cs : List Tree} (owner : t.shape.ownsTemps = true)
      (below : Lowers options none a.openScope t.shape.children cs a') :
      Lowers options none a [t] [(t.withChildren cs).declaring a'.held] a'.closeScope
  | classDecl {a a₁ a₂ : Account} {o : Option NodeId} {name : Tree} {heritage base : Option Tree}
      {members properties : List Tree} {r : Option Range} {c : String} (named : name.name? = some c)
      (above : Lowers options none a heritage.toList base.toList a₁)
      (below : Lowers options (some c) (a₁.withUsed false)
        (Tree.withConstructor members base.isSome) properties a₂) :
      Lowers options none a [.node o (.classDecl name heritage members) r]
        [.declareClass options name
          (.createClass options properties (Tree.hasConstructor members) base r) r]
        (a₂.withUsed a₁.used)
  | classExprBound {a a₁ a₂ : Account} {o : Option NodeId} {name heritage base : Option Tree}
      {members properties : List Tree} {r : Option Range}
      (above : Lowers options none a.allocate heritage.toList base.toList a₁)
      (below : Lowers options (some (Temps.name a.fresh)) (a₁.withUsed false)
        (Tree.withConstructor members base.isSome) properties a₂)
      (used : a₂.used = true) :
      Lowers options none a [.node o (.classExpr name heritage members) r]
        [.node none (.paren (.assign (.temp a.fresh)
          (.createClass options properties (Tree.hasConstructor members) base r))) r]
        (a₂.withUsed a₁.used)
  | classExprFree {a a₁ a₂ : Account} {o : Option NodeId} {name heritage base : Option Tree}
      {members properties : List Tree} {r : Option Range}
      (above : Lowers options none a.allocate heritage.toList base.toList a₁)
      (below : Lowers options (some (Temps.name a.fresh)) (a₁.withUsed false)
        (Tree.withConstructor members base.isSome) properties a₂)
      (unused : a₂.used = false) :
      Lowers options none a [.node o (.classExpr name heritage members) r]
        [.createClass options properties (Tree.hasConstructor members) base r]
        ((a₂.withUsed a₁.used).release a.fresh)
  | member {c : String} {a a₁ a' : Account} {t : Tree} {cs cs' : List Tree} {kind : MemberKind}
      (legal : MemberKind.ofShape? t.shape = some kind)
      (expanded : Expands ⟨c, options.runtimeName, kind⟩ false a.openScope t.shape.children cs a₁)
      (below : Lowers options none a₁ cs cs' a') :
      Lowers options (some c) a [t]
        [Tree.asProperty kind ((t.withChildren cs').declaring a'.held)] a'.closeScope

/-! ### Failure -/

/-- The lowering of classes up to a fault. What was opened before the fault is closed after it; the
temporary of a class expression is not given back. -/
inductive Halts (options : Options) :
    Option String → Account → List Tree → Fault → Account → Prop where
  | head {c : Option String} {a a' : Account} {t : Tree} {ts : List Tree} {fault : Fault}
      (failed : Halts options c a [t] fault a') : Halts options c a (t :: ts) fault a'
  | tail {c : Option String} {a a₁ a' : Account} {t t' : Tree} {ts : List Tree} {fault : Fault}
      (done : Lowers options c a [t] [t'] a₁) (failed : Halts options c a₁ ts fault a') :
      Halts options c a (t :: ts) fault a'
  | walk {a a' : Account} {t : Tree} {fault : Fault} (plain : t.shape.isClass = false)
      (shared : t.shape.ownsTemps = false)
      (failed : Halts options none a t.shape.children fault a') : Halts options none a [t] fault a'
  | scope {a a' : Account} {t : Tree} {fault : Fault} (owner : t.shape.ownsTemps = true)
      (failed : Halts options none a.openScope t.shape.children fault a') :
      Halts options none a [t] fault a'.closeScope
  | declName {a : Account} {o : Option NodeId} {name : Tree} {heritage : Option Tree}
      {members : List Tree} {r : Option Range} (nameless : name.name? = none) :
      Halts options none a [.node o (.classDecl name heritage members) r]
        (.unexpectedNode "identifier" name.shape.kind) a
  | declHeritage {a a' : Account} {o : Option NodeId} {name : Tree} {heritage : Option Tree}
      {members : List Tree} {r : Option Range} {c : String} {fault : Fault}
      (named : name.name? = some c) (failed : Halts options none a heritage.toList fault a') :
      Halts options none a [.node o (.classDecl name heritage members) r] fault a'
  | declMember {a a₁ a' : Account} {o : Option NodeId} {name : Tree} {heritage base : Option Tree}
      {members : List Tree} {r : Option Range} {c : String} {fault : Fault}
      (named : name.name? = some c) (above : Lowers options none a heritage.toList base.toList a₁)
      (failed : Halts options (some c) (a₁.withUsed false) members fault a') :
      Halts options none a [.node o (.classDecl name heritage members) r] fault
        (a'.withUsed a₁.used)
  | exprHeritage {a a' : Account} {o : Option NodeId} {name heritage : Option Tree}
      {members : List Tree} {r : Option Range} {fault : Fault}
      (failed : Halts options none a.allocate heritage.toList fault a') :
      Halts options none a [.node o (.classExpr name heritage members) r] fault a'
  | exprMember {a a₁ a' : Account} {o : Option NodeId} {name heritage base : Option Tree}
      {members : List Tree} {r : Option Range} {fault : Fault}
      (above : Lowers options none a.allocate heritage.toList base.toList a₁)
      (failed : Halts options (some (Temps.name a.fresh)) (a₁.withUsed false) members fault a') :
      Halts options none a [.node o (.classExpr name heritage members) r] fault
        (a'.withUsed a₁.used)
  | kind {c : String} {a : Account} {t : Tree} (illegal : MemberKind.ofShape? t.shape = none) :
      Halts options (some c) a [t] (.unexpectedMember t.shape.kind t.range) a
  | member {c : String} {a a₁ a' : Account} {t : Tree} {cs : List Tree} {kind : MemberKind}
      {fault : Fault} (legal : MemberKind.ofShape? t.shape = some kind)
      (expanded : Expands ⟨c, options.runtimeName, kind⟩ false a.openScope t.shape.children cs a₁)
      (failed : Halts options none a₁ cs fault a') :
      Halts options (some c) a [t] fault a'.closeScope

/-- The parts of a class. The name of a class expression is not among them, for the lowering drops
it. -/
structure ClassParts (α : Type) where
  name : Option α
  heritage : Option α
  members : List α

/-- The parts of a shape that is a class. -/
def Shape.classParts? {α : Type} : Shape α → Option (ClassParts α)
  | .classDecl name heritage members => some ⟨some name, heritage, members⟩
  | .classExpr _ heritage members => some ⟨none, heritage, members⟩
  | _ => none

namespace Tree

/-- Collect values from a tree: what `own` finds at a construct, then what is found in its children;
at a class, what `atClass` makes of its parts. -/
def gather {γ : Type} (own : Option NodeId → Shape Tree → List γ)
    (atClass : ClassParts (Tree × List γ) → List γ) : Tree → List γ :=
  para fun origin shape _ => match shape.classParts? with
    | some parts => atClass parts
    | none => own origin (shape.map Prod.fst) ++ shape.children.flatMap Prod.snd

/-- The fault of a name that is no identifier. -/
def nameFaults (t : Tree) : List Fault :=
  if t.name?.isSome then [] else [.unexpectedNode "identifier" t.shape.kind]

/-- The fault of a member of a kind that classes do not have. -/
def memberFaults (t : Tree) : List Fault :=
  if (MemberKind.ofShape? t.shape).isSome then [] else [.unexpectedMember t.shape.kind t.range]

/-- The faults of the classes in a tree, in the order in which the lowering would meet them. The
first one ends it. -/
def faults : Tree → List Fault :=
  gather (fun _ _ => []) fun parts =>
    parts.name.toList.flatMap (fun name => nameFaults name.1) ++
      (parts.heritage.toList.flatMap Prod.snd ++
        parts.members.flatMap fun member => memberFaults member.1 ++ member.2)

/-- How deep the classes in a tree are nested in members of classes, counted from one. -/
def classDepths : Tree → List Nat :=
  gather (fun _ _ => []) fun parts =>
    parts.heritage.toList.flatMap Prod.snd ++
      1 :: parts.members.flatMap fun member => member.2.map (· + 1)

end Tree

end Declass
