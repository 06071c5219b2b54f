import Mathlib.Data.Finset.Lattice.Lemmas
import Declass.Scope.Table
import Declass.Proofs.Rewriting

/-!
# Where names are bound

The scopes of a program, read off its tree. Each construct has a rule that says which names it binds
and where, which of its parts see the scope around it, and which scope it opens for its other parts:

```
construct              binds in its own scope                binds around it
declarator                                                   its name, as `var` does
parameter                                                    its name, in the scope at hand
function declaration   its name, `arguments`, parameters     its name, as `var` does
function expression    its name, `arguments`, parameters
arrow, method          `arguments`, parameters
getter, setter         its parameter
catch clause           the caught name
class declaration                                            its name, as `var` does
```

A name is bound as `var` does if it is bound in the innermost scope that is not that of a catch
clause, wherever in that scope the declaration stands. The heritage of a class and its members see
the scope around the class. The name of a class expression is bound nowhere; it is dropped when
classes are lowered.

## Main definitions

* `ScopeRule`, `Shape.scopeRule` — the table
* `Tree.vars`, `Tree.locals` — what a tree binds in the scopes around it
* `Tree.uses` — the uses of names in a tree, each with the scopes that lie around it in the tree
* `Tree.free`, `Tree.undefined` — the uses of names that no scope binds
* `Effect`, `Tree.effect` — all that a tree adds to the scopes around it

## Main results

* `Tree.free_node`, `Tree.undefined_eq_filter` — free uses, construct by construct
* `Tree.effect_node` — the effect of a construct, by its rule
-/

namespace Declass

variable {α β : Type}

/-! ### Rules -/

/-- A scope that a construct opens. -/
structure InnerScope (α : Type) where
  /-- Whether the names that `var` declares stay in it. -/
  keepsVars : Bool
  /-- The children whose names it binds. -/
  names : List α := []
  /-- The words it binds besides. -/
  words : List String := []
  /-- The parts that see it. -/
  parts : List α

/-- What a construct has to do with scopes. -/
structure ScopeRule (α : Type) where
  /-- The children whose names are bound as `var` does. -/
  hoisted : List α := []
  /-- The children whose names are bound in the scope at hand. -/
  declared : List α := []
  /-- The parts that see the scope at hand. -/
  parts : List α := []
  /-- The scope that the construct opens. -/
  inner : Option (InnerScope α) := none

/-- The rule of a construct. -/
def Shape.scopeRule : Shape α → ScopeRule α
  | .declarator name value => { hoisted := [name], parts := value.toList }
  | .parameter name value _ => { declared := [name], parts := value.toList }
  | .functionDecl name parameters body => {
      hoisted := [name]
      inner := some {
        keepsVars := true, names := [name],
        words := ["arguments"], parts := parameters ++ [body] } }
  | .functionExpr name parameters body => {
      inner := some {
        keepsVars := true, names := name.toList, words := ["arguments"]
        parts := parameters ++ [body] } }
  | .arrow parameters body | .method _ parameters body => {
      inner := some { keepsVars := true, words := ["arguments"], parts := parameters ++ [body] } }
  | .getter _ body => { inner := some { keepsVars := true, parts := [body] } }
  | .setter _ incoming body => { inner := some { keepsVars := true, parts := [incoming, body] } }
  | .catchClause caught body => {
      inner := some { keepsVars := false, names := [caught], parts := [body] } }
  | .classDecl name heritage members => {
      hoisted := [name], parts := heritage.toList ++ members }
  | .classExpr _ heritage members => { parts := heritage.toList ++ members }
  | shape => { parts := shape.children }

namespace InnerScope

/-- The scope with other parts. -/
def map (f : α → β) (scope : InnerScope α) : InnerScope β where
  keepsVars := scope.keepsVars
  names := scope.names.map f
  words := scope.words
  parts := scope.parts.map f

end InnerScope

namespace ScopeRule

/-- The rule with other parts. -/
def map (f : α → β) (rule : ScopeRule α) : ScopeRule β where
  hoisted := rule.hoisted.map f
  declared := rule.declared.map f
  parts := rule.parts.map f
  inner := rule.inner.map (InnerScope.map f)

/-- The children in binding positions. -/
def binders (rule : ScopeRule α) : List α :=
  rule.hoisted ++ rule.declared ++ rule.inner.toList.flatMap InnerScope.names

end ScopeRule

/-- The scope rule of a mapped shape is the mapped rule. -/
theorem Shape.scopeRule_map (f : α → β) (s : Shape α) :
    (s.map f).scopeRule = s.scopeRule.map f := by
  cases s <;>
    simp [Shape.map, scopeRule, ScopeRule.map, InnerScope.map, Shape.children, Option.toList_map]

theorem ScopeRule.binders_map (f : α → β) (rule : ScopeRule α) :
    (rule.map f).binders = rule.binders.map f := by
  obtain ⟨hoisted, declared, parts, inner⟩ := rule
  cases inner <;> simp [ScopeRule.map, binders, InnerScope.map]

/-- Only children are in binding positions. -/
theorem Shape.mem_children_of_mem_binders {s : Shape α} {c : α} (h : c ∈ s.scopeRule.binders) :
    c ∈ s.children := by
  cases s <;> simp_all [scopeRule, ScopeRule.binders, Shape.children]

/-- Only children are visited in the scope at hand. -/
theorem Shape.mem_children_of_mem_parts {s : Shape α} {c : α} (h : c ∈ s.scopeRule.parts) :
    c ∈ s.children := by
  cases s with
  | classDecl | classExpr => grind [scopeRule, Shape.children]
  | _ => simp_all [scopeRule, Shape.children]

/-- Only children are visited in the scope that is opened. -/
theorem Shape.mem_children_of_mem_inner {s : Shape α} {scope : InnerScope α} {c : α}
    (hs : s.scopeRule.inner = some scope) (h : c ∈ scope.parts) : c ∈ s.children := by
  cases s <;> simp only [scopeRule, Option.some.injEq, reduceCtorEq] at hs <;> subst hs <;>
    simp_all [Shape.children]

/-! ### Bindings -/

/-- A use of a name, with the names bound by each scope around it, innermost first. -/
structure Use where
  reference : Reference
  scopes : List (List String) := []
  deriving DecidableEq

namespace Use

/-- The use inside one more scope. -/
def within (names : List String) (use : Use) : Use :=
  { use with scopes := use.scopes ++ [names] }

/-- Whether a scope around the use binds its name. -/
def isBound (use : Use) : Bool :=
  use.scopes.any fun names => use.reference.name ∈ names

@[simp] theorem reference_within (names : List String) (use : Use) :
    (use.within names).reference = use.reference := rfl

@[simp] theorem isBound_within (names : List String) (use : Use) :
    (use.within names).isBound = (use.isBound || decide (use.reference.name ∈ names)) := by
  simp only [isBound, within, List.any_append, List.any_cons, List.any_nil, Bool.or_false]
  rfl

end Use

/-- The use of a name that a construct is. -/
def Shape.use? : Shape α → Option Range → Option Reference
  | .identifier name, range => some ⟨name, range⟩
  | _, _ => none

@[simp] theorem Shape.use?_map (f : α → β) (s : Shape α) (range : Option Range) :
    (s.map f).use? range = s.use? range := by
  cases s <;> rfl

namespace Tree

/-- The names that a tree binds around it as `var` does. -/
def vars : Tree → List String :=
  para fun _ shape _ =>
    let rule := shape.scopeRule
    rule.hoisted.filterMap (fun name => name.1.name?) ++
      (rule.parts.flatMap Prod.snd ++ rule.inner.toList.flatMap fun scope =>
        if scope.keepsVars then [] else scope.parts.flatMap Prod.snd)

/-- The names that a tree binds in the scope around it, by means of parameters. -/
def locals : Tree → List String :=
  para fun _ shape _ =>
    let rule := shape.scopeRule
    rule.declared.filterMap (fun name => name.1.name?) ++ rule.parts.flatMap Prod.snd

end Tree

/-- The names that a scope binds. -/
def InnerScope.bound (scope : InnerScope Tree) : List String :=
  scope.names.filterMap Tree.name? ++ scope.words ++ scope.parts.flatMap Tree.locals ++
    if scope.keepsVars then scope.parts.flatMap Tree.vars else []

namespace Tree

/-- The uses of names in a tree, from left to right. -/
def uses : Tree → List Use :=
  para fun _ shape range =>
    let rule := shape.scopeRule
    (shape.use? range).toList.map (fun reference => ⟨reference, []⟩) ++
      (rule.parts.flatMap Prod.snd ++ rule.inner.toList.flatMap fun scope =>
        (scope.parts.flatMap Prod.snd).map (Use.within (scope.map Prod.fst).bound))

/-- The uses among `uses` whose names are not bound. -/
def unbound (uses : List Use) : List Reference :=
  (uses.filter fun use => !use.isBound).map Use.reference

/-- The uses of names that no scope in the tree binds. -/
def free (t : Tree) : List Reference :=
  unbound t.uses

/-- The uses of names in a program that no scope binds. The outermost scope is that of the program;
it binds the ambient names as well. -/
def undefined (ambient : List String) (t : Tree) : List Reference :=
  unbound (t.uses.map (Use.within (ambient ++ (t.vars ++ t.locals))))

/-! ### Equations -/

theorem vars_node (o : Option NodeId) (s : Shape Tree) (r : Option Range) :
    vars (.node o s r) = s.scopeRule.hoisted.filterMap name? ++
      (s.scopeRule.parts.flatMap vars ++ s.scopeRule.inner.toList.flatMap fun scope =>
        if scope.keepsVars then [] else scope.parts.flatMap vars) := by
  rw [vars, para_node, ← vars, Shape.scopeRule_map]
  obtain ⟨hoisted, declared, parts, inner⟩ := s.scopeRule
  cases inner <;>
    simp [ScopeRule.map, InnerScope.map, List.flatMap_map, List.filterMap_map]

theorem locals_node (o : Option NodeId) (s : Shape Tree) (r : Option Range) :
    locals (.node o s r) =
      s.scopeRule.declared.filterMap name? ++ s.scopeRule.parts.flatMap locals := by
  rw [locals, para_node, ← locals, Shape.scopeRule_map]
  simp [ScopeRule.map, List.flatMap_map, List.filterMap_map]

/-- The uses of a construct: its own, those around its scope, those in it. -/
theorem uses_node (o : Option NodeId) (s : Shape Tree) (r : Option Range) :
    uses (.node o s r) = (s.use? r).toList.map (fun reference => ⟨reference, []⟩) ++
      (s.scopeRule.parts.flatMap uses ++ s.scopeRule.inner.toList.flatMap fun scope =>
        (scope.parts.flatMap uses).map (Use.within scope.bound)) := by
  rw [uses, para_node, ← uses, Shape.scopeRule_map]
  obtain ⟨hoisted, declared, parts, inner⟩ := s.scopeRule
  cases inner <;>
    simp [ScopeRule.map, InnerScope.map, List.flatMap_map, Function.comp_def]

theorem unbound_append (us vs : List Use) : unbound (us ++ vs) = unbound us ++ unbound vs := by
  simp [unbound]

theorem unbound_flatMap (ts : List Tree) : unbound (ts.flatMap uses) = ts.flatMap free := by
  induction ts with
  | nil => rfl
  | cons t ts ih => rw [List.flatMap_cons, unbound_append, ih, List.flatMap_cons, free]

theorem unbound_within (names : List String) (us : List Use) :
    unbound (us.map (Use.within names)) =
      (unbound us).filter fun reference => reference.name ∉ names := by
  induction us with
  | nil => rfl
  | cons u us ih =>
    by_cases h : u.isBound = true <;> by_cases hn : u.reference.name ∈ names <;>
      simp_all [unbound]

/-- The free uses of a construct: its own, those of its parts, and those of the parts in a scope of
their own that are not bound there. -/
theorem free_node (o : Option NodeId) (s : Shape Tree) (r : Option Range) :
    free (.node o s r) = (s.use? r).toList ++
      (s.scopeRule.parts.flatMap free ++ s.scopeRule.inner.toList.flatMap fun scope =>
        (scope.parts.flatMap free).filter fun reference => reference.name ∉ scope.bound) := by
  have hown : unbound ((s.use? r).toList.map fun reference => ⟨reference, []⟩) =
      (s.use? r).toList := by
    cases s.use? r <;> simp [unbound, Use.isBound]
  rw [free, uses_node, unbound_append, unbound_append, hown, unbound_flatMap]
  cases s.scopeRule.inner with
  | none => rfl
  | some scope => simp [unbound_within, unbound_flatMap]

/-- The undefined uses, in the order of the free ones. -/
theorem undefined_eq_filter (ambient : List String) (t : Tree) :
    t.undefined ambient =
      t.free.filter fun reference => reference.name ∉ ambient ++ (t.vars ++ t.locals) :=
  unbound_within _ _

/-- An undefined name is free in the tree and bound neither by it nor around it. -/
theorem mem_undefined {ambient : List String} {t : Tree} {use : Reference} :
    use ∈ t.undefined ambient ↔
      use ∈ t.free ∧ use.name ∉ ambient ∧ use.name ∉ t.vars ∧ use.name ∉ t.locals := by
  simp [undefined_eq_filter]

/-- A property of all uses of names in a tree. -/
theorem forall_mem_free {p : Reference → Prop} {t : Tree}
    (h : t.Everywhere fun u => ∀ use ∈ u.shape.use? u.range, p use) : ∀ use ∈ t.free, p use := by
  induction h with
  | @node o s r root below ih =>
    intro use huse
    rw [free_node, List.mem_append, List.mem_append] at huse
    rcases huse with hown | hpart | hinner
    · exact root use (Option.mem_toList.mp hown)
    · obtain ⟨c, hc, huse⟩ := List.mem_flatMap.mp hpart
      exact ih c (Shape.mem_children_of_mem_parts hc) use huse
    · obtain ⟨scope, hscope, huse⟩ := List.mem_flatMap.mp hinner
      obtain ⟨c, hc, huse⟩ := List.mem_flatMap.mp (List.mem_filter.mp huse).1
      exact ih c (Shape.mem_children_of_mem_inner (Option.mem_toList.mp hscope) hc) use huse

end Tree

/-! ### Effects -/

/-- What a piece of code adds to the scopes around it. -/
@[ext]
structure Effect where
  /-- Names bound as `var` does. -/
  vars : Finset String := ∅
  /-- Names bound in the innermost scope. -/
  locals : Finset String := ∅
  /-- Uses of names that are not bound further inside. -/
  uses : List Reference := []

namespace Effect

/-- One effect after another. -/
def andThen (e e' : Effect) : Effect :=
  ⟨e.vars ∪ e'.vars, e.locals ∪ e'.locals, e.uses ++ e'.uses⟩

@[simp] theorem empty_andThen (e : Effect) : ({} : Effect).andThen e = e := by
  simp [andThen]

@[simp] theorem andThen_empty (e : Effect) : e.andThen {} = e := by
  simp [andThen]

/-- The effect of a scope on the scopes around it, given the effect of what is in it. -/
def closing (e : Effect) (keepsVars : Bool) : Effect :=
  if keepsVars then { uses := e.uses.filter fun use => use.name ∉ e.locals ∪ e.vars }
  else { vars := e.vars, uses := e.uses.filter fun use => use.name ∉ e.locals }

end Effect

/-- What a tree adds to the scopes around it. -/
def Tree.effect (t : Tree) : Effect :=
  ⟨t.vars.toFinset, t.locals.toFinset, t.free⟩

/-- What a list of trees adds to the scopes around it. -/
def Tree.effects (ts : List Tree) : Effect :=
  ⟨(ts.flatMap vars).toFinset, (ts.flatMap locals).toFinset, ts.flatMap free⟩

namespace InnerScope

/-- What the parts of a scope add to it. -/
def inside (scope : InnerScope Tree) : Effect where
  vars := (scope.parts.flatMap Tree.vars).toFinset
  locals := (scope.names.filterMap Tree.name? ++ scope.words ++
    scope.parts.flatMap Tree.locals).toFinset
  uses := scope.parts.flatMap Tree.free

/-- What a scope adds to the scopes around it. -/
def outside (scope : InnerScope Tree) : Effect where
  vars := if scope.keepsVars then ∅ else (scope.parts.flatMap Tree.vars).toFinset
  uses := (scope.parts.flatMap Tree.free).filter fun use => use.name ∉ scope.bound

/-- Leaving the scope of a construct gives what it adds to those around. -/
theorem closing_inside (scope : InnerScope Tree) :
    scope.inside.closing scope.keepsVars = scope.outside := by
  rw [Effect.closing, outside]
  cases hkeeps : scope.keepsVars <;> simp [inside, bound, hkeeps]

end InnerScope

namespace Tree

theorem effects_cons (t : Tree) (ts : List Tree) :
    effects (t :: ts) = t.effect.andThen (effects ts) := by
  simp [effects, effect, Effect.andThen]

theorem effects_append (ts us : List Tree) :
    effects (ts ++ us) = (effects ts).andThen (effects us) := by
  simp [effects, Effect.andThen]

@[simp] theorem effects_nil : effects [] = {} := rfl

@[simp] theorem effects_singleton (t : Tree) : effects [t] = t.effect := by
  rw [effects_cons, effects_nil, Effect.andThen_empty]

/-- The effect of a construct, by its rule. -/
theorem effect_node (o : Option NodeId) (s : Shape Tree) (r : Option Range) :
    effect (.node o s r) =
      Effect.andThen
        ⟨(s.scopeRule.hoisted.filterMap name?).toFinset,
          (s.scopeRule.declared.filterMap name?).toFinset,
          (s.use? r).toList⟩
        ((effects s.scopeRule.parts).andThen
          ((s.scopeRule.inner.map InnerScope.outside).getD {})) := by
  rw [effect, vars_node, locals_node, free_node]
  cases s.scopeRule.inner with
  | none => simp [effects, Effect.andThen]
  | some scope =>
    cases h : scope.keepsVars <;> simp [effects, Effect.andThen, InnerScope.outside, h]

end Tree

end Declass
