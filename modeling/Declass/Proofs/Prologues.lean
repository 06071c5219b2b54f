import Declass.Proofs.Collisions

/-!
# The directives at the top of a body

The body of a program or of a function may begin with directives: statements that are strings, such
as `"use strict"`. They are directives only as long as nothing else stands before them. The lowering
leaves them as they are and makes no others, but it declares temporaries in front of them. So the
directives of a body survive iff no temporaries are left to it, and this can be told from the
source: a temporary is left for each class expression in the body that is kept in one, and, in a
member of a class, for each key of `super` that is.

## Main definitions

* `Tree.isDirective`, `Tree.prologue` — directives, and those that a list of statements begins with
* `Tree.lasting` — the class expressions that are kept in temporaries of the scope around a tree
* `Body`, `Tree.bodies` — the bodies in a tree in the order of emission, with the number of
  temporaries that are left to each of them
* `Body.Becomes` — a body with temporaries declared in front of its directives

## Main results

* `Lowers.sameDirectives` — directives stay where they are
* `Lowers.exists_gains` — how many temporaries come to be held
* `lowerProgram_prologues` — which directives survive
-/

namespace Declass

open Edit Lowering

/-! ### Directives -/

namespace Tree

/-- The tree is a string. -/
def isText (t : Tree) : Bool :=
  match t.shape with
  | .literal (.string _) => true
  | _ => false

/-- The tree is a statement that is a string. -/
def isDirective (t : Tree) : Bool :=
  match t.shape with
  | .exprStatement expression => expression.isText
  | _ => false

/-- The directives that a list of statements begins with. -/
def prologue (statements : List Tree) : List Tree :=
  statements.takeWhile isDirective

end Tree

/-- The constructs that are neither strings, directives nor blocks whatever they are made of. -/
def Shape.isInert {α : Type} : Shape α → Bool
  | .literal _ | .exprStatement _ | .block _ => false
  | _ => true

namespace Tree

/-- Two trees that are the same string or the same directive, or neither, and blocks with the same
prologue. -/
structure SameDirectives (t t' : Tree) : Prop where
  text : t.isText = true ∨ t'.isText = true → t' = t
  directive : t.isDirective = true ∨ t'.isDirective = true → t' = t
  prologue_eq : prologue t'.blockStatements = prologue t.blockStatements

namespace SameDirectives

variable {t t' t'' : Tree} {ts ts' : List Tree}

theorem refl (t : Tree) : SameDirectives t t :=
  ⟨fun _ => rfl, fun _ => rfl, rfl⟩

theorem trans (h₁ : SameDirectives t t') (h₂ : SameDirectives t' t'') : SameDirectives t t'' := by
  refine ⟨?_, ?_, h₂.prologue_eq.trans h₁.prologue_eq⟩
  · rintro (h | h)
    · obtain rfl := h₁.text (.inl h)
      exact h₂.text (.inl h)
    · obtain rfl := h₂.text (.inr h)
      exact h₁.text (.inr h)
  · rintro (h | h)
    · obtain rfl := h₁.directive (.inl h)
      exact h₂.directive (.inl h)
    · obtain rfl := h₂.directive (.inr h)
      exact h₁.directive (.inr h)

theorem of_isInert (h : t.shape.isInert = true) (h' : t'.shape.isInert = true) :
    SameDirectives t t' := by
  have hnone {t : Tree} (h : t.shape.isInert = true) :
      t.isText = false ∧ t.isDirective = false ∧ t.blockStatements = [] := by
    rw [isText, isDirective, blockStatements]
    generalize t.shape = s at h
    cases s <;> first | exact ⟨rfl, rfl, rfl⟩ | cases h
  obtain ⟨htext, hdirective, hblock⟩ := hnone h
  obtain ⟨htext', hdirective', hblock'⟩ := hnone h'
  exact ⟨by simp [htext, htext'], by simp [hdirective, hdirective'], by rw [hblock, hblock']⟩

/-- Statements that are the same directives have the same prologue. -/
theorem prologue_statements (h : List.Forall₂ SameDirectives ts ts') :
    prologue ts' = prologue ts := by
  induction h with
  | nil => rfl
  | @cons t t' us us' head _ ih =>
    rw [prologue, prologue] at ih ⊢
    by_cases hsame : t.isDirective = true ∨ t'.isDirective = true
    · rw [head.directive hsame, List.takeWhile_cons, List.takeWhile_cons, ih]
    · obtain ⟨ht, ht'⟩ := not_or.mp hsame
      rw [List.takeWhile_cons_of_neg ht, List.takeWhile_cons_of_neg ht']

theorem prologue_pairs {ps : List (Tree × Tree)} (h : ∀ p ∈ ps, SameDirectives p.1 p.2) :
    prologue (ps.map Prod.snd) = prologue (ps.map Prod.fst) := by
  refine prologue_statements ?_
  rw [List.forall₂_map_left_iff, List.forall₂_map_right_iff]
  exact List.forall₂_same.mpr h

variable {cs : List Tree} (h : List.Forall₂ SameDirectives t.shape.children cs)

include h

/-- Rewritten parts leave the directives as they are. -/
theorem withChildren : SameDirectives t (t.withChildren cs) := by
  obtain ⟨o, s, r⟩ := t
  obtain ⟨z, hfst, hsnd, hpairs⟩ := Shape.exists_pairs_of_forall₂ h
  rw [shape_node] at hfst hsnd
  rw [Tree.withChildren, shape_node, hsnd, hfst]
  cases z with
  | literal => exact refl _
  | exprStatement expression =>
    have hexpression := (hpairs expression List.mem_cons_self).text
    refine ⟨by simp [isText, Shape.map], fun hsame => ?_, rfl⟩
    change node o (.exprStatement expression.2) r = node o (.exprStatement expression.1) r
    rw [hexpression hsame]
  | block =>
    exact ⟨by simp [isText, Shape.map], by simp [isDirective, Shape.map], prologue_pairs hpairs⟩
  | _ => exact of_isInert rfl rfl

/-- The body of a program or function has the same prologue if its parts are the same
directives. -/
theorem prologue_bodyStatements :
    prologue (t.withChildren cs).bodyStatements = prologue t.bodyStatements := by
  obtain ⟨o, s, r⟩ := t
  obtain ⟨z, hfst, hsnd, hpairs⟩ := Shape.exists_pairs_of_forall₂ h
  rw [shape_node] at hfst hsnd
  rw [Tree.withChildren, shape_node, hsnd, hfst]
  have hbody {s s' : Shape Tree} (body : Tree × Tree) (hs : s.body? = some body.1)
      (hs' : s'.body? = some body.2) (hmem : body ∈ z.children) :
      prologue (node o s' r).bodyStatements = prologue (node o s r).bodyStatements := by
    rw [bodyStatements_of_body? (t := node o s r) hs,
      bodyStatements_of_body? (t := node o s' r) hs']
    exact (hpairs body hmem).prologue_eq
  cases z with
  | program => exact prologue_pairs hpairs
  | functionDecl _ _ body | functionExpr _ _ body | arrow _ body | method _ _ body
  | getter _ body | setter _ _ body =>
    exact hbody body rfl rfl (by simp [Shape.children])
  | _ => rfl

end SameDirectives

theorem isInert_of_ownsTemps {s : Shape Tree} (h : s.ownsTemps = true) : s.isInert = true := by
  cases s <;> first | rfl | cases h

theorem isInert_of_isGlue {s : Shape Tree} (h : s.isGlue = true) : s.isInert = true := by
  cases s <;> first | rfl | cases h

theorem isInert_of_superRole {t : Tree} {use : SuperUse Tree} (role : t.superRole = .use use) :
    t.shape.isInert = true := by
  cases hs : t.shape with
  | literal | exprStatement | block =>
    rw [superRole, hs] at role
    cases role
  | _ => rfl

theorem isInert_asProperty {t : Tree} {kind : MemberKind}
    (legal : MemberKind.ofShape? t.shape = some kind) :
    (t.asProperty kind).shape.isInert = true := by
  rw [asProperty]
  split
  case isFalse => exact isInert_of_ownsTemps (ownsTemps_of_ofShape? legal)
  case isTrue hkind =>
    obtain ⟨o, s, r⟩ := t
    obtain ⟨name, parameters, body, rfl : s = _⟩ := isConstructor_of_ofShape? (hkind ▸ legal)
    rfl

end Tree

open Declass.Tree in
/-- **Directives stay where they are** when classes are lowered. -/
theorem Lowers.sameDirectives {options : Options} {c : Option String} {a a' : Account}
    {ts ts' : List Tree} (h : Lowers options c a ts ts' a') :
    List.Forall₂ SameDirectives ts ts' := by
  have single {t t' : Tree} (h : SameDirectives t t') : List.Forall₂ SameDirectives [t] [t'] :=
    .cons h .nil
  have inert {t t' : Tree} (h : t.shape.isInert = true) (h' : t'.shape.isInert = true) :
      List.Forall₂ SameDirectives [t] [t'] :=
    single (.of_isInert h h')
  induction h with
  | nil => exact .nil
  | cons _ _ ihHead ihTail => exact .cons (List.forall₂_cons.mp ihHead).1 ihTail
  | walk _ _ _ ih => exact single (.withChildren ih)
  | scope owner =>
    refine inert (isInert_of_ownsTemps owner) (isInert_of_ownsTemps ?_)
    rwa [ownsTemps_declaring, ownsTemps_withChildren]
  | classDecl | classExprBound | classExprFree => exact inert rfl rfl
  | member legal =>
    refine inert (isInert_of_ownsTemps (ownsTemps_of_ofShape? legal)) (isInert_asProperty ?_)
    rwa [ofShape?_declaring]

/-! ### Temporaries that last -/

namespace Tree

/-- The class expressions in a tree that are kept in temporaries of the scope around it, told by
where they stand. -/
def lasting : Tree → List (Option Range) :=
  para fun _ shape range => match shape.classParts? with
    | some parts =>
      let kept := parts.name.isNone &&
        usesSuper (parts.members.map Prod.fst) parts.heritage.isSome
      (if kept then [range] else []) ++ parts.heritage.toList.flatMap Prod.snd
    | none => if shape.ownsTemps then [] else shape.children.flatMap Prod.snd

variable {t : Tree}

theorem lasting_of_class {parts : ClassParts Tree} (h : t.shape.classParts? = some parts) :
    t.lasting =
      (if parts.name.isNone && usesSuper parts.members parts.heritage.isSome then [t.range]
        else []) ++ parts.heritage.toList.flatMap lasting := by
  obtain ⟨o, s, r⟩ := t
  rw [shape_node] at h
  rw [lasting, para_node, ← lasting, Shape.classParts?_map, h]
  obtain ⟨name, heritage, members⟩ := parts
  cases heritage <;> simp [ClassParts.map, Function.comp_def]

theorem lasting_classExpr (o : Option NodeId) (name heritage : Option Tree) (members : List Tree)
    (r : Option Range) :
    lasting (.node o (.classExpr name heritage members) r) =
      (if usesSuper members heritage.isSome then [r] else []) ++
        heritage.toList.flatMap lasting := by
  rw [lasting_of_class rfl]
  rfl

theorem lasting_of_owner (owner : t.shape.ownsTemps = true) : t.lasting = [] := by
  obtain ⟨o, s, r⟩ := t
  rw [lasting, para_node]
  cases s <;> first | rfl | cases owner

theorem lasting_of_plain (plain : t.shape.isClass = false) (shared : t.shape.ownsTemps = false) :
    t.lasting = t.shape.children.flatMap lasting := by
  obtain ⟨o, s, r⟩ := t
  rw [shape_node] at plain shared
  have shared' : (s.map fun c => (c, lasting c)).ownsTemps = false := by
    rw [← shared]
    cases s <;> rfl
  rw [lasting, para_node, ← lasting, Shape.classParts?_map, Shape.classParts?_eq_none plain]
  simp only [Option.map_none, shared', Bool.false_eq_true, if_false, Shape.children_map,
    List.flatMap_map, shape_node]

theorem ownsTemps_of_isGlue {s : Shape Tree} (h : s.isGlue = true) : s.ownsTemps = false := by
  cases s <;> first | rfl | cases h

theorem additive_lasting : Additive (fun _ => True) lasting where
  glue _ h := lasting_of_plain (Shape.isClass_of_isGlue h) (ownsTemps_of_isGlue h)
  ident _ _ := lasting_of_plain rfl rfl
  this := lasting_of_plain rfl rfl
  literal _ := lasting_of_plain rfl rfl

theorem lasting_withChildren {cs : List Tree} (plain : t.shape.isClass = false)
    (h : List.Forall₂ (fun t t' => lasting t' = lasting t) t.shape.children cs) :
    (t.withChildren cs).lasting = t.lasting := by
  have hclass := (isClass_withChildren t cs).trans plain
  have howner := ownsTemps_withChildren t cs
  cases owner : t.shape.ownsTemps with
  | true => rw [lasting_of_owner owner, lasting_of_owner (howner.trans owner)]
  | false =>
    rw [lasting_of_plain plain owner, lasting_of_plain hclass (howner.trans owner),
      flatMap_children_withChildren h]

/-- What lasts of code. The temporaries of a member are its own. -/
def lastingAs : Option String → Tree → List (Option Range)
  | none, t => t.lasting
  | some _, _ => []

@[simp] theorem flatMap_lastingAs_some (c : String) (ts : List Tree) :
    ts.flatMap (lastingAs (some c)) = [] :=
  List.flatMap_eq_nil_iff.mpr fun _ _ => rfl

end Tree

section Gains

open Declass.Tree

variable {a a' : Account} {ts ts' : List Tree}

/-- How many temporaries an expansion takes. -/
theorem Expands.exists_gains {site : Site} {nested : Bool} (h : Expands site nested a ts ts' a')
    (hscopes : a.temps.scopes ≠ []) :
    ∃ new, a.Gains a' new ∧ new.length = (ts.flatMap (boundUses nested)).length := by
  have hiterate (k : Nat) : ∀ a : Account, a.temps.scopes ≠ [] → ∃ new,
      a.Gains { a with temps := (fun t => t.allocate.2)^[k] a.temps } new ∧ new.length = k := by
    induction k with
    | zero => exact fun a hscopes => ⟨[], .of_scopes_eq hscopes rfl, rfl⟩
    | succ k ih =>
      intro a hscopes
      have hfresh := Account.Gains.allocate hscopes
      obtain ⟨new, hnew, hlength⟩ := ih a.allocate hfresh.scopes_ne_nil
      exact ⟨_, hfresh.trans hnew, congrArg Nat.succ hlength⟩
  obtain ⟨new, hnew, hlength⟩ := hiterate _ a hscopes
  refine ⟨new, ?_, hlength⟩
  rwa [Account.Gains, h.temps_eq]

/-- **How many temporaries come to be held** when trees are lowered: one for each class expression
that lasts. -/
theorem Lowers.exists_gains {options : Options} {c : Option String}
    (h : Lowers options c a ts ts' a') (hscopes : a.temps.scopes ≠ []) :
    ∃ new, a.Gains a' new ∧ new.length = (ts.flatMap (lastingAs c)).length := by
  induction h with
  | nil => exact ⟨[], .of_scopes_eq hscopes rfl, rfl⟩
  | cons _ _ ihHead ihTail =>
    obtain ⟨new, head, hlength⟩ := ihHead hscopes
    obtain ⟨new', tail, hlength'⟩ := ihTail head.scopes_ne_nil
    rw [List.flatMap_singleton] at hlength
    refine ⟨new ++ new', head.trans tail, ?_⟩
    rw [List.flatMap_cons, List.length_append, List.length_append, hlength, hlength']
  | walk plain shared _ ih =>
    rw [List.flatMap_singleton, lastingAs, lasting_of_plain plain shared]
    exact ih hscopes
  | scope owner _ ih =>
    obtain ⟨new, below, -⟩ := ih (List.cons_ne_nil _ _)
    refine ⟨[], .of_scopes_eq hscopes below.scopes_closeScope, ?_⟩
    rw [List.flatMap_singleton, lastingAs, lasting_of_owner owner]
    rfl
  | classDecl _ _ _ ihAbove ihBelow =>
    obtain ⟨new, above, hlength⟩ := ihAbove hscopes
    obtain ⟨new', below, hlength'⟩ := ihBelow above.scopes_ne_nil
    refine ⟨new ++ new', above.trans below, ?_⟩
    rw [flatMap_lastingAs_some] at hlength'
    rw [List.flatMap_singleton, lastingAs, lasting_of_class rfl, List.length_append, hlength,
      hlength']
    rfl
  | classExprBound above below used ihAbove ihBelow =>
    have fresh := Account.Gains.allocate hscopes
    obtain ⟨new, above', hlength⟩ := ihAbove fresh.scopes_ne_nil
    obtain ⟨new', below', hlength'⟩ := ihBelow above'.scopes_ne_nil
    refine ⟨_, fresh.trans (above'.trans below'), ?_⟩
    rw [flatMap_lastingAs_some] at hlength'
    rw [List.flatMap_singleton, lastingAs, lasting_classExpr, ← above.isSome_eq,
      if_pos (below.usesSuper_eq.trans used), List.length_append, List.length_append,
      List.length_append, hlength, hlength']
    rfl
  | classExprFree above below unused ihAbove ihBelow =>
    have fresh := Account.Gains.allocate hscopes
    obtain ⟨new, above', hlength⟩ := ihAbove fresh.scopes_ne_nil
    obtain ⟨new', below', hlength'⟩ := ihBelow above'.scopes_ne_nil
    refine ⟨new ++ new', (fresh.trans (above'.trans below')).release, ?_⟩
    rw [flatMap_lastingAs_some] at hlength'
    rw [List.flatMap_singleton, lastingAs, lasting_classExpr, ← above.isSome_eq,
      if_neg (by simp [below.usesSuper_eq, unused]), List.length_append, hlength, hlength']
    rfl
  | member _ expanded _ ih =>
    obtain ⟨new, expanded', -⟩ := expanded.exists_gains (List.cons_ne_nil _ _)
    obtain ⟨new', below, -⟩ := ih expanded'.scopes_ne_nil
    refine ⟨[], .of_scopes_eq hscopes (expanded'.trans below).scopes_closeScope, ?_⟩
    rw [flatMap_lastingAs_some]
    rfl

end Gains

/-! ### Bodies -/

/-- The body of a program or of a function. -/
structure Body where
  statements : List Tree
  /-- How many temporaries are left to the body. -/
  temps : Nat

namespace Body

/-- The directives that the body begins with. -/
def prologue (b : Body) : List Tree :=
  Tree.prologue b.statements

/-- Two bodies with the same directives and as many temporaries. -/
structure Agree (b b' : Body) : Prop where
  prologue_eq : b'.prologue = b.prologue
  temps_eq : b'.temps = b.temps

theorem Agree.refl (b : Body) : Agree b b :=
  ⟨rfl, rfl⟩

end Body

namespace Tree

/-- The declaration of temporaries, if there are any. -/
def opening (temps : List Nat) : List Tree :=
  if temps = [] then [] else [declareTemps temps]

/-- The body of a program or function. -/
def body (t : Tree) : Body :=
  ⟨t.bodyStatements, (t.shape.children.flatMap lasting).length⟩

/-- The body of a member of a class, which has the keys of `super` in its temporaries as well. -/
def memberBody (t : Tree) : Body :=
  ⟨t.bodyStatements, (t.shape.children.flatMap (boundUses false)).length +
    (t.shape.children.flatMap lasting).length⟩

/-- The bodies of a part of a tree, given those below it. -/
def withBody (part : Tree × List Body) : List Body :=
  if part.1.shape.ownsTemps then part.1.body :: part.2 else part.2

/-- The bodies in the children of a tree, in the order in which they are emitted. The members of a
class come before its heritage, and a class without a constructor is given one. -/
def bodiesBelow : Tree → List Body :=
  para fun _ shape _ => match shape.classParts? with
    | some parts =>
      let given := if hasConstructor (parts.members.map Prod.fst) then []
        else [(defaultConstructor parts.heritage.isSome).memberBody]
      parts.members.flatMap (fun part => part.1.memberBody :: part.2) ++ given ++
        parts.heritage.toList.flatMap withBody
    | none => shape.children.flatMap withBody

/-- The bodies in a tree. -/
def bodies (t : Tree) : List Body :=
  withBody (t, t.bodiesBelow)

/-- The bodies in a member of a class. -/
def memberBodies (t : Tree) : List Body :=
  t.memberBody :: t.bodiesBelow

variable {t t' : Tree}

theorem bodiesBelow_of_plain (plain : t.shape.isClass = false) :
    t.bodiesBelow = t.shape.children.flatMap bodies := by
  obtain ⟨o, s, r⟩ := t
  rw [shape_node] at plain
  rw [bodiesBelow, para_node, Shape.classParts?_map, Shape.classParts?_eq_none plain]
  simp only [Option.map_none, Shape.children_map, List.flatMap_map]
  rfl

theorem bodies_of_plain (plain : t.shape.isClass = false) (shared : t.shape.ownsTemps = false) :
    t.bodies = t.shape.children.flatMap bodies := by
  rw [bodies, withBody, if_neg (by simp [shared]), bodiesBelow_of_plain plain]

theorem bodies_of_owner (owner : t.shape.ownsTemps = true) :
    t.bodies = t.body :: t.shape.children.flatMap bodies := by
  rw [bodies, withBody, if_pos owner, bodiesBelow_of_plain (isClass_of_ownsTemps owner)]

theorem memberBodies_of_owner (owner : t.shape.ownsTemps = true) :
    t.memberBodies = t.memberBody :: t.shape.children.flatMap bodies := by
  rw [memberBodies, bodiesBelow_of_plain (isClass_of_ownsTemps owner)]

theorem bodies_of_class {parts : ClassParts Tree} (h : t.shape.classParts? = some parts) :
    t.bodies = (withConstructor parts.members parts.heritage.isSome).flatMap memberBodies ++
      parts.heritage.toList.flatMap bodies := by
  have hgiven (hasBase : Bool) : (defaultConstructor hasBase).memberBodies =
      [(defaultConstructor hasBase).memberBody] := by
    rw [memberBodies, List.cons.injEq]
    refine ⟨rfl, ?_⟩
    cases hasBase <;> decide +kernel
  have shared : t.shape.ownsTemps = false := by
    generalize t.shape = s at h
    cases s <;> first | rfl | cases h
  obtain ⟨o, s, r⟩ := t
  obtain ⟨name, heritage, members⟩ := parts
  rw [shape_node] at h
  have hself : (members.map fun c => (c, bodiesBelow c)).map Prod.fst = members := by
    simp [Function.comp_def]
  have hheritage : (heritage.map fun c => (c, bodiesBelow c)).toList.flatMap withBody =
      heritage.toList.flatMap bodies := by
    rw [Option.toList_map, List.flatMap_map]
    rfl
  rw [bodies, withBody, if_neg (by simpa using shared), bodiesBelow, para_node, ← bodiesBelow,
    Shape.classParts?_map, h]
  simp only [Option.map_some, ClassParts.map, hself, hheritage, Option.isSome_map, List.flatMap_map,
    withConstructor]
  split
  · rw [List.append_nil]
    rfl
  · rw [List.flatMap_append, List.flatMap_singleton, hgiven]
    rfl

theorem additive_bodies : Additive (fun _ => True) bodies where
  glue _ h := bodies_of_plain (Shape.isClass_of_isGlue h) (ownsTemps_of_isGlue h)
  ident _ _ := bodies_of_plain rfl rfl
  this := bodies_of_plain rfl rfl
  literal _ := bodies_of_plain rfl rfl

/-! ### Bodies of members whose `super`s are expanded -/

/-- Two trees with the same directives and bodies that agree, in the same order. -/
structure SameBodies (t t' : Tree) : Prop where
  directives : SameDirectives t t'
  lasting_eq : t'.lasting = t.lasting
  bodies : List.Forall₂ Body.Agree t.bodies t'.bodies

namespace SameBodies

theorem refl (t : Tree) : SameBodies t t :=
  ⟨.refl t, rfl, List.forall₂_same.mpr fun b _ => .refl b⟩

theorem flatMap {ts ts' : List Tree} (h : List.Forall₂ SameBodies ts ts') :
    List.Forall₂ Body.Agree (ts.flatMap Tree.bodies) (ts'.flatMap Tree.bodies) :=
  List.rel_flatMap h fun _ _ hc => hc.bodies

theorem flatMap_lasting {ts ts' : List Tree} (h : List.Forall₂ SameBodies ts ts') :
    ts'.flatMap lasting = ts.flatMap lasting :=
  flatMap_eq_of_forall₂ (h.imp fun _ _ hc => hc.lasting_eq)

/-- The bodies in a construct agree if those in its parts do. -/
theorem withChildren {cs : List Tree} (plain : t.shape.isClass = false)
    (h : List.Forall₂ SameBodies t.shape.children cs) : SameBodies t (t.withChildren cs) := by
  have hdirectives := h.imp fun _ _ hc => hc.directives
  have hlasting := h.imp fun _ _ hc => hc.lasting_eq
  refine ⟨.withChildren hdirectives, lasting_withChildren plain hlasting, ?_⟩
  have hclass := (isClass_withChildren t cs).trans plain
  have howner := ownsTemps_withChildren t cs
  have hchildren := children_withChildren h.length_eq.symm
  have hbelow := flatMap h
  cases owner : t.shape.ownsTemps with
  | true =>
    rw [bodies_of_owner owner, bodies_of_owner (howner.trans owner), hchildren]
    refine .cons ⟨SameDirectives.prologue_bodyStatements hdirectives, ?_⟩ hbelow
    exact congrArg List.length (flatMap_children_withChildren hlasting)
  | false =>
    rwa [bodies_of_plain plain owner, bodies_of_plain hclass (howner.trans owner), hchildren]

/-- A class with another heritage has the same bodies if the heritage has. -/
theorem ofClass {parts parts' : ClassParts Tree} (ht : t.shape.classParts? = some parts)
    (ht' : t'.shape.classParts? = some parts') (range : t'.range = t.range)
    (name : parts'.name.isNone = parts.name.isNone) (members : parts'.members = parts.members)
    (heritage : List.Forall₂ SameBodies parts.heritage.toList parts'.heritage.toList) :
    SameBodies t t' := by
  have inert {t : Tree} {parts : ClassParts Tree} (h : t.shape.classParts? = some parts) :
      t.shape.isInert = true := by
    generalize t.shape = s at h
    cases s <;> first | rfl | cases h
  have hsome : parts'.heritage.isSome = parts.heritage.isSome := by
    have hlength := heritage.length_eq
    cases hh : parts.heritage <;> cases hh' : parts'.heritage <;> simp_all
  refine ⟨.of_isInert (inert ht) (inert ht'), ?_, ?_⟩
  · rw [lasting_of_class ht, lasting_of_class ht', range, name, members, hsome,
      flatMap_lasting heritage]
  · rw [bodies_of_class ht, bodies_of_class ht', members, hsome]
    exact List.rel_append (List.forall₂_same.mpr fun b _ => .refl b) (flatMap heritage)

/-- The expansion of `super` keeps the bodies. -/
theorem compatible : Expands.Compatible (fun _ => True) SameBodies where
  refl := refl
  walk _ _ := withChildren
  classDecl _ _ _ _ _ _ heritage := .ofClass rfl rfl rfl rfl rfl heritage
  classExpr _ _ _ _ _ _ heritage := .ofClass rfl rfl rfl rfl rfl heritage
  use {t t' use operands} role h emits := by
    refine ⟨.of_isInert (isInert_of_superRole role) (isInert_of_isGlue emits.isGlue), ?_, ?_⟩
    · rw [emits.eq_flatMap additive_lasting, flatMap_operands additive_lasting.glue role,
        flatMap_lasting h]
    · rw [emits.eq_flatMap additive_bodies, flatMap_operands additive_bodies.glue role]
      exact flatMap h

end SameBodies

/-! ### Bodies of lowered code -/

theorem bodies_declareTemps (temps : List Nat) : (declareTemps temps).bodies = [] := by
  have hdeclarator (n : Nat) :
      (gen (.declarator (gen (.binding (Temps.name n))) none)).bodies = [] := by
    rw [bodies_of_plain rfl rfl]
    simp [gen, Shape.children, bodies_of_plain (t := node none (.binding _) none) rfl rfl]
  rw [declareTemps, bodies_of_plain rfl rfl, List.flatMap_eq_nil_iff]
  rintro c hc
  obtain ⟨n, -, rfl⟩ := List.mem_map.mp hc
  exact hdeclarator n

theorem bodies_prepend (temps : List Nat) (body : Tree) :
    (prepend (declareTemps temps) body).bodies = body.bodies := by
  have hstatements : body.statements.flatMap bodies = body.bodies := by
    rw [statements]
    split
    case h_1 hblock =>
      rw [bodies_of_plain (t := body) (by rw [hblock]; rfl) (by rw [hblock]; rfl), hblock,
        Shape.children]
    case h_2 =>
      rw [List.flatMap_singleton, bodies_of_plain (t := node none _ _) rfl rfl]
      exact List.flatMap_singleton _ _
  rw [prepend, bodies_of_plain rfl rfl, shape_node, Shape.children, List.flatMap_cons,
    bodies_declareTemps, hstatements, List.nil_append]

section Declaring

variable (owner : t.shape.ownsTemps = true) (temps : List Nat)

include owner

/-- The declaration of temporaries has no bodies. -/
theorem flatMap_bodies_declaring :
    (t.declaring temps).shape.children.flatMap bodies = t.shape.children.flatMap bodies := by
  rw [declaring]
  split
  case isTrue => rfl
  case isFalse =>
    rw [shape_node]
    rcases ownsTemps_cases owner with ⟨statements, hs⟩ | ⟨hfunction, hdeclaring⟩
    · rw [hs, Shape.declaring, Shape.children, Shape.children, List.flatMap_cons,
        bodies_declareTemps, List.nil_append]
    · obtain ⟨init, body, -, hchildren, hmap⟩ := Shape.exists_body hfunction
      rw [hdeclaring, (hmap _).2, hchildren, List.flatMap_append, List.flatMap_append,
        List.flatMap_singleton, List.flatMap_singleton, bodies_prepend]

/-- The declaration of temporaries stands in front of the directives. -/
theorem exists_bodyStatements_declaring :
    ∃ rest, (t.declaring temps).bodyStatements = opening temps ++ rest ∧
      prologue rest = prologue t.bodyStatements := by
  rw [declaring, opening]
  split
  case isTrue => exact ⟨_, rfl, rfl⟩
  case isFalse =>
    rcases ownsTemps_cases owner with ⟨statements, hs⟩ | ⟨hfunction, hdeclaring⟩
    · rw [hs, bodyStatements, bodyStatements, hs]
      exact ⟨statements, rfl, rfl⟩
    · obtain ⟨init, body, hbody, -, hmap⟩ := Shape.exists_body hfunction
      have hbody' := bodyStatements_of_body?
        (t := node none (t.shape.mapBody (prepend (declareTemps temps))) t.range) (hmap _).1
      rw [hdeclaring, hbody', bodyStatements_of_body? hbody]
      refine ⟨body.statements, rfl, ?_⟩
      -- A body that is an expression is returned, and so it has no directives either way.
      rw [statements, blockStatements]
      cases body.shape <;> rfl

end Declaring

theorem bodies_asProperty {kind : MemberKind} (legal : MemberKind.ofShape? t.shape = some kind) :
    (t.asProperty kind).bodies = t.bodies := by
  rw [asProperty]
  split
  case isFalse => rfl
  case isTrue hkind =>
    obtain ⟨o, s, r⟩ := t
    obtain ⟨name, parameters, body, rfl : s = _⟩ := isConstructor_of_ofShape? (hkind ▸ legal)
    rw [constructorProperty, shape_node, bodies_of_plain rfl rfl]
    rw [shape_node, Shape.children, List.flatMap_singleton, bodies_of_owner rfl,
      bodies_of_owner rfl]
    rfl

theorem bodies_createClass (options : Options) (properties : List Tree) (hasConstructor : Bool)
    (base : Option Tree) (r : Option Range) :
    (createClass options properties hasConstructor base r).bodies =
      properties.flatMap bodies ++ base.toList.flatMap bodies := by
  have hcallee : (helper options.runtimeName .createClass).bodies = [] := by
    rw [helper, bodies_of_plain rfl rfl]
    exact (List.flatMap_singleton _ _).trans (additive_bodies.ident _ trivial)
  have hobject : (gen (.object properties)).bodies = properties.flatMap bodies :=
    bodies_of_plain rfl rfl
  rw [createClass, bodies_of_plain rfl rfl]
  cases base <;> simp [Shape.children, hcallee, hobject, additive_bodies.literal, boolean]

theorem bodies_declareClass (options : Options) {name : Tree} {c : String}
    (named : name.name? = some c) (call : Tree) (r : Option Range) :
    (declareClass options name call r).bodies = call.bodies := by
  have hname : name.bodies = [] := by
    obtain ⟨o, s, r⟩ := name
    cases s <;> first | exact bodies_of_plain rfl rfl | cases named
  rw [declareClass, bodies_of_plain rfl rfl, shape_node, Shape.children, List.flatMap_singleton,
    bodies_of_plain rfl rfl]
  simp [Shape.children, hname]

theorem bodies_assignTemp (number : Nat) (value : Tree) (r : Option Range) :
    bodies (.node none (.paren (.assign (.temp number) value)) r) = value.bodies := by
  have hassign : (assign (temp number) value).bodies = value.bodies := by
    rw [assign, bodies_of_plain rfl rfl]
    simp [gen, Shape.children, temp, additive_bodies.ident _ trivial]
  rw [bodies_of_plain rfl rfl]
  simp [Shape.children, hassign]

/-- The bodies of code, or those of a member of a class. -/
def bodiesAs : Option String → Tree → List Body
  | none, t => t.bodies
  | some _, t => t.memberBodies

end Tree

/-- What becomes of a body: as many temporaries as are left to it are declared in front of its
directives. -/
def Body.Becomes (b b' : Body) : Prop :=
  ∃ temps rest, temps.length = b.temps ∧ b'.statements = Tree.opening temps ++ rest ∧
    Tree.prologue rest = b.prologue

namespace Body.Becomes

variable {b b' b'' : Body}

theorem of_agree (h₁ : Agree b b') (h₂ : Becomes b' b'') : Becomes b b'' := by
  obtain ⟨temps, rest, hlength, hstatements, hprologue⟩ := h₂
  exact ⟨temps, rest, hlength.trans h₁.temps_eq, hstatements, hprologue.trans h₁.prologue_eq⟩

/-- **When directives survive:** if there are none, or no temporaries. -/
theorem prologue_eq_iff (h : Becomes b b') :
    b'.prologue = b.prologue ↔ b.temps = 0 ∨ b.prologue = [] := by
  obtain ⟨temps, rest, hlength, hstatements, hprologue⟩ := h
  rw [← hlength, ← hprologue, prologue, hstatements, Tree.opening, List.length_eq_zero_iff]
  split
  case isTrue hnil => simp [hnil]
  case isFalse hne =>
    have hnone : Tree.prologue ([Tree.declareTemps temps] ++ rest) = [] :=
      List.takeWhile_cons_of_neg (by simp [Tree.isDirective, Tree.declareTemps, Tree.gen])
    rw [hnone]
    exact ⟨fun h => .inr h.symm, fun h => (h.resolve_left hne).symm⟩

open Declass.Tree in
/-- A program or function, its parts being the same directives as before. -/
theorem declaring {t : Tree} {cs : List Tree} {held : List Nat} (owner : t.shape.ownsTemps = true)
    (hlength : held.length = b.temps) (hstatements : b.statements = t.bodyStatements)
    (h : List.Forall₂ SameDirectives t.shape.children cs) :
    Becomes b ((t.withChildren cs).declaring held).body := by
  obtain ⟨rest, hrest, hprologue⟩ :=
    exists_bodyStatements_declaring ((ownsTemps_withChildren t cs).trans owner) held
  refine ⟨held, rest, hlength, hrest, ?_⟩
  rw [hprologue, SameDirectives.prologue_bodyStatements h, Body.prologue, hstatements]

end Body.Becomes

open Declass.Tree in
/-- **What becomes of the bodies** when classes are lowered. -/
theorem Lowers.becomes {options : Options} {c : Option String} {a a' : Account}
    {ts ts' : List Tree} (h : Lowers options c a ts ts' a') :
    List.Forall₂ Body.Becomes (ts.flatMap (bodiesAs c)) (ts'.flatMap bodies) := by
  have hopen (a : Account) : a.openScope.temps.scopes ≠ [] := List.cons_ne_nil _ _
  induction h with
  | nil => exact .nil
  | cons _ _ ihHead ihTail =>
    rw [List.flatMap_singleton, List.flatMap_singleton] at ihHead
    exact List.rel_append ihHead ihTail
  | @walk _ _ t cs plain shared below ih =>
    have plain' := (isClass_withChildren t cs).trans plain
    have shared' := (ownsTemps_withChildren t cs).trans shared
    rwa [List.flatMap_singleton, List.flatMap_singleton, bodiesAs, bodies_of_plain plain shared,
      bodies_of_plain plain' shared', children_withChildren below.length_eq]
  | @scope a a' t cs owner below ih =>
    have owner' := (ownsTemps_withChildren t cs).trans owner
    obtain ⟨new, gains, hnew⟩ := below.exists_gains (hopen a)
    have hlength : a'.held.length = t.body.temps := gains.held_perm.length_eq.trans hnew
    rw [List.flatMap_singleton, List.flatMap_singleton, bodiesAs, bodies_of_owner owner,
      bodies_of_owner ((ownsTemps_declaring _ _).trans owner'), flatMap_bodies_declaring owner',
      children_withChildren below.length_eq]
    exact .cons (.declaring owner hlength rfl below.sameDirectives) ih
  | classDecl named above _ ihAbove ihBelow =>
    rw [List.flatMap_singleton, List.flatMap_singleton, bodiesAs, bodies_of_class rfl,
      bodies_declareClass _ named, bodies_createClass, ← above.isSome_eq]
    exact List.rel_append ihBelow ihAbove
  | classExprBound above _ _ ihAbove ihBelow =>
    rw [List.flatMap_singleton, List.flatMap_singleton, bodiesAs, bodies_of_class rfl,
      bodies_assignTemp, bodies_createClass, ← above.isSome_eq]
    exact List.rel_append ihBelow ihAbove
  | classExprFree above _ _ ihAbove ihBelow =>
    rw [List.flatMap_singleton, List.flatMap_singleton, bodiesAs, bodies_of_class rfl,
      bodies_createClass, ← above.isSome_eq]
    exact List.rel_append ihBelow ihAbove
  | @member _ a a₁ a₂ t cs cs' kind legal expanded below ih =>
    have owner := ownsTemps_of_ofShape? legal
    have owner' := (ownsTemps_withChildren t cs').trans owner
    have hchildren := children_withChildren (below.length_eq.trans expanded.length_eq)
    have hexpanded := expanded.forall₂' SameBodies.compatible
    have hdirectives : List.Forall₂ SameDirectives t.shape.children cs' :=
      forall₂_comp .trans (hexpanded.imp fun _ _ hc => hc.directives) below.sameDirectives
    -- The scope holds the keys of `super`, and then what lasts of the expanded member.
    obtain ⟨keys, gains, hkeys⟩ := expanded.exists_gains (hopen a)
    obtain ⟨new, gains', hnew⟩ := below.exists_gains gains.scopes_ne_nil
    have hlength : a₂.held.length = t.memberBody.temps := by
      rw [(gains.trans gains').held_perm.length_eq, List.length_append, hkeys, hnew]
      exact congrArg _ (congrArg _ (SameBodies.flatMap_lasting hexpanded))
    rw [List.flatMap_singleton, List.flatMap_singleton, bodiesAs, memberBodies_of_owner owner,
      bodies_asProperty ((ofShape?_declaring t cs' a₂.held).trans legal),
      bodies_of_owner ((ownsTemps_declaring _ _).trans owner'), flatMap_bodies_declaring owner',
      hchildren]
    exact .cons (.declaring owner hlength rfl hdirectives)
      (forall₂_comp .of_agree (SameBodies.flatMap hexpanded) ih)

/-! ### Programs -/

/-- **Which directives survive.** The bodies of a program that is lowered become those of the
result, one for one, in the order in which they are emitted. A body becomes one with as many
temporaries declared by its first statement as are left to it, if there are any, and with the same
directives behind that. So it still begins with its directives iff no temporaries are left to it or
it has no directives. -/
theorem lowerProgram_prologues {s : Store} {root lowered : NodeId} {options : Options}
    {state : LoweringState} {session : Session LoweringState} (closed : s.Closed root)
    (acyclic : s.Acyclic root)
    (run : (lowerProgram options root).runOn ⟨s, state⟩ = (.ok lowered, session)) :
    List.Forall₂ (fun body body' => body.Becomes body' ∧
        (body'.prologue = body.prologue ↔ body.temps = 0 ∨ body.prologue = []))
      (s.tree s.size root).bodies (session.store.tree s.size lowered).bodies := by
  have hg : s.Grounded root := Store.grounded_iff.mpr ⟨closed, acyclic⟩
  obtain ⟨-, hlowers⟩ := hg.lowers run
  have hbecomes := hlowers.becomes
  rw [List.flatMap_singleton, List.flatMap_singleton] at hbecomes
  exact hbecomes.imp fun _ _ h => ⟨h, h.prologue_eq_iff⟩

/-- `"a"; function f() { "b"; class extends A {}; } class B { m() { "c"; ++super[k]; } }` -/
def directingStore : Store where
  nodes := #[⟨.literal (.string "a"), none⟩, ⟨.exprStatement ⟨0⟩, none⟩, ⟨.binding "f", none⟩,
    ⟨.literal (.string "b"), none⟩, ⟨.exprStatement ⟨3⟩, none⟩, ⟨.identifier "A", none⟩,
    ⟨.classExpr none (some ⟨5⟩) [], none⟩, ⟨.exprStatement ⟨6⟩, none⟩, ⟨.block [⟨4⟩, ⟨7⟩], none⟩,
    ⟨.functionDecl ⟨2⟩ [] ⟨8⟩, none⟩, ⟨.binding "B", none⟩, ⟨.literal (.string "c"), none⟩,
    ⟨.exprStatement ⟨11⟩, none⟩, ⟨.superExpr, none⟩, ⟨.identifier "k", none⟩,
    ⟨.lookup ⟨13⟩ ⟨14⟩, none⟩, ⟨.unary "++" ⟨15⟩, none⟩, ⟨.exprStatement ⟨16⟩, none⟩,
    ⟨.block [⟨12⟩, ⟨17⟩], none⟩, ⟨.method (.identifier "m") [] ⟨18⟩, none⟩,
    ⟨.classDecl ⟨10⟩ none [⟨19⟩], none⟩, ⟨.program [⟨1⟩, ⟨9⟩, ⟨20⟩], none⟩]

/-- Of the three directives only that of the program survives. -/
theorem lowerProgram_prologues_directing : ∃ lowered session,
    (lowerProgram {} ⟨21⟩).runOn ⟨directingStore, {}⟩ = (.ok lowered, session) ∧
      directingStore.Closed ⟨21⟩ ∧ directingStore.Acyclic ⟨21⟩ ∧
      let source := (directingStore.tree directingStore.size ⟨21⟩).bodies
      let program := (session.store.tree directingStore.size lowered).bodies
      (source.map fun body => (body.prologue.length, body.temps)) =
        [(1, 0), (1, 1), (0, 0), (1, 1), (0, 0)] ∧
      List.Forall₂ (fun body body' => body.Becomes body' ∧
        (body'.prologue = body.prologue ↔ body.temps = 0 ∨ body.prologue = [])) source program := by
  have fits : directingStore.Fits 22 ⟨21⟩ := by decide +kernel
  obtain ⟨closed, acyclic⟩ := Store.grounded_iff.mp fits.grounded
  have source : ((directingStore.tree directingStore.size ⟨21⟩).bodies.map fun body =>
      (body.prologue.length, body.temps)) = [(1, 0), (1, 1), (0, 0), (1, 1), (0, 0)] := by
    decide +kernel
  have ok : ((lowerProgram {} ⟨21⟩).runOn ⟨directingStore, {}⟩).1.isOk := by decide +kernel
  generalize run : (lowerProgram {} ⟨21⟩).runOn ⟨directingStore, {}⟩ = out at ok ⊢
  obtain ⟨_ | lowered, session⟩ := out
  · cases ok
  · exact ⟨lowered, session, rfl, closed, acyclic, source,
      lowerProgram_prologues closed acyclic run⟩

/-- `"use strict"; class extends A {};` -/
def strictStore : Store where
  nodes := #[⟨.literal (.string "use strict"), none⟩, ⟨.exprStatement ⟨0⟩, none⟩,
    ⟨.identifier "A", none⟩, ⟨.classExpr none (some ⟨2⟩) [], none⟩, ⟨.exprStatement ⟨3⟩, none⟩,
    ⟨.program [⟨1⟩, ⟨4⟩], none⟩]

/-- **A program ceases to be strict,** for it now begins with the declaration of a temporary. -/
theorem lowerProgram_loses_prologue : ∃ lowered session,
    (lowerProgram {} ⟨5⟩).runOn ⟨strictStore, {}⟩ = (.ok lowered, session) ∧
      strictStore.Closed ⟨5⟩ ∧ strictStore.Acyclic ⟨5⟩ ∧
      (Tree.prologue (strictStore.tree strictStore.size ⟨5⟩).bodyStatements).length = 1 ∧
      Tree.prologue (session.store.tree strictStore.size lowered).bodyStatements = [] := by
  have fits : strictStore.Fits 6 ⟨5⟩ := by decide +kernel
  obtain ⟨closed, acyclic⟩ := Store.grounded_iff.mp fits.grounded
  have source :
      (Tree.prologue (strictStore.tree strictStore.size ⟨5⟩).bodyStatements).length = 1 := by
    decide +kernel
  have ok : ((lowerProgram {} ⟨5⟩).runOn ⟨strictStore, {}⟩).1.isOk ∧
      ∀ lowered ∈ ((lowerProgram {} ⟨5⟩).runOn ⟨strictStore, {}⟩).1.toOption,
        Tree.prologue (((lowerProgram {} ⟨5⟩).runOn ⟨strictStore, {}⟩).2.store.tree strictStore.size
          lowered).bodyStatements = [] := by
    decide +kernel
  generalize (lowerProgram {} ⟨5⟩).runOn ⟨strictStore, {}⟩ = out at ok ⊢
  obtain ⟨_ | lowered, session⟩ := out
  · cases ok.1
  · exact ⟨lowered, session, rfl, closed, acyclic, source, ok.2 lowered rfl⟩

end Declass
