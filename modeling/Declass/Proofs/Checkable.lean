import Declass.Proofs.Scaffold
import Declass.Proofs.Visiting

/-!
# Lowered code can be checked

The check for undefined names refuses classes and block scoped declarations, and it asks for names
in binding positions. The lowering of classes leaves no class behind. It makes no block scoped
declaration unless it is told to declare classes so, and what stands in a binding position is what
stood there before, or generated.

## Main definitions

* `Tree.WellBound` — what is asked of a construct before classes are lowered
* `Tree.Keeps` — what becomes of a tree that is well bound throughout

## Main results

* `Lowers.keeps` — lowered code is checkable
-/

namespace Declass

namespace Tree

/-- What is asked of a construct before classes are lowered: it is no `let` or `const` statement,
and the children in binding positions are names. -/
@[mk_iff]
structure WellBound (t : Tree) : Prop where
  notBlockScoped : t.shape.isBlockScoped = false
  named : ∀ c ∈ t.shape.scopeRule.binders, c.name?.isSome

theorem WellBound.of_binders_eq_nil {t : Tree} (hvar : t.shape.isBlockScoped = false)
    (hbinders : t.shape.scopeRule.binders = []) : t.WellBound :=
  ⟨hvar, by simp [hbinders]⟩

theorem wellBound_of_isGlue {t : Tree} (h : t.shape.isGlue = true) : t.WellBound := by
  generalize hs : t.shape = s at h
  cases s with
  | call | binary | unary | member | lookup | superExpr | array | paren | comma =>
    exact .of_binders_eq_nil (by rw [hs]; rfl) (by rw [hs]; rfl)
  | _ => cases h

theorem wellBound_of_isLeaf {t : Tree} (h : t.shape.isLeaf = true) : t.WellBound := by
  generalize hs : t.shape = s at h
  cases s with
  | emptyStatement | binding | identifier | literal | thisExpr =>
    exact .of_binders_eq_nil (by rw [hs]; rfl) (by rw [hs]; rfl)
  | _ => cases h

/-- A construct with other children that have the same names is well bound as before. -/
theorem WellBound.withChildren {t : Tree} (h : t.WellBound) {cs : List Tree}
    (hnames : List.Forall₂ (fun c c' : Tree => c'.name? = c.name?) t.shape.children cs) :
    (t.withChildren cs).WellBound := by
  obtain ⟨z, hfst, hsnd, hz⟩ := Shape.exists_pairs_of_forall₂ hnames
  obtain ⟨hvar, hnamed⟩ := h
  rw [hfst, Shape.isBlockScoped_map] at hvar
  rw [hfst, Shape.scopeRule_map, ScopeRule.binders_map, List.forall_mem_map] at hnamed
  refine ⟨?_, ?_⟩
  · rw [Tree.withChildren, shape_node, hsnd, Shape.isBlockScoped_map, hvar]
  · rw [Tree.withChildren, shape_node, hsnd, Shape.scopeRule_map, ScopeRule.binders_map,
      List.forall_mem_map]
    intro p hp
    rw [hz p (Shape.mem_children_of_mem_binders hp)]
    exact hnamed p hp

/-- A tree becomes one with the same name, and if it is well bound throughout, then `p` holds
throughout. -/
structure Keeps (p : Tree → Prop) (t t' : Tree) : Prop where
  name?_eq : t'.name? = t.name?
  everywhere : t.Everywhere WellBound → t'.Everywhere p

namespace Keeps

variable {p : Tree → Prop} {t t' t'' : Tree}

theorem comp (h₁ : Keeps WellBound t t') (h₂ : Keeps p t' t'') : Keeps p t t'' :=
  ⟨h₂.name?_eq.trans h₁.name?_eq, h₂.everywhere ∘ h₁.everywhere⟩

theorem forall_mem {ts ts' : List Tree} (h : List.Forall₂ (Keeps p) ts ts')
    (hts : ∀ t ∈ ts, t.Everywhere WellBound) : ∀ t ∈ ts', t.Everywhere p :=
  forall_mem_of_forall₂ h (fun _ _ => everywhere) hts

theorem everywhere_withChildren {cs : List Tree} (h : List.Forall₂ (Keeps p) t.shape.children cs)
    (ht : t.Everywhere WellBound) (hp : (t.withChildren cs).WellBound → p (t.withChildren cs)) :
    (t.withChildren cs).Everywhere p := by
  have hroot := ht.root.withChildren (h.imp fun _ _ hc => hc.name?_eq)
  have hchildren := forall_mem h fun c hc => ht.child hc
  refine .node (hp hroot) ?_
  rwa [Shape.children_refill h.length_eq.symm]

/-- A construct stays well bound if its parts do. -/
theorem withChildren {cs : List Tree} (h : List.Forall₂ (Keeps p) t.shape.children cs)
    (hp : (t.withChildren cs).WellBound → p (t.withChildren cs)) :
    Keeps p t (t.withChildren cs) := by
  refine ⟨?_, fun ht => everywhere_withChildren h ht hp⟩
  obtain ⟨o, s, r⟩ := t
  cases s with
  | classDecl _ heritage _ | functionExpr heritage _ _ => cases heritage <;> rfl
  | _ => rfl

/-- The expansion of `super` leaves trees well bound. -/
theorem compatible : Expands.Compatible (fun _ => True) (Keeps WellBound) where
  refl t := ⟨rfl, id⟩
  walk t cs _ h := withChildren h id
  classDecl o name h h' ms r heritage := by
    have hchildren := forall₂_children_classDecl (fun _ => ⟨rfl, id⟩) heritage name ms
    refine ⟨rfl, fun ht => .node ⟨rfl, ht.root.named⟩ ?_⟩
    exact forall_mem hchildren fun c hc => ht.child hc
  classExpr o name h h' ms r heritage := by
    have hchildren := forall₂_children_classExpr (fun _ => ⟨rfl, id⟩) heritage name ms
    refine ⟨rfl, fun ht => .node ⟨rfl, ht.root.named⟩ ?_⟩
    exact forall_mem hchildren fun c hc => ht.child hc
  use {t t' use operands} role h emits := by
    refine ⟨?_, fun ht => ?_⟩
    · rw [name?_of_isGlue emits.isGlue, name?_of_superRole role]
    · refine emits.everywhere (fun _ => wellBound_of_isGlue) (fun _ => wellBound_of_isLeaf) ?_
      exact forall_mem h fun c hc => ht.operand role hc

end Keeps

/-! ### Generated code -/

theorem WellBound.checkable {t : Tree} (h : t.WellBound) (hclass : t.shape.isClass = false) :
    t.Checkable :=
  ⟨hclass, h.notBlockScoped, h.named⟩

/-- What the check asks of a construct is asked of the scaffold of classes only where names are
declared. -/
theorem lenient_checkable : Lenient (· = .varWord) Checkable where
  neutral t h := by
    generalize hs : t.shape = s at h
    cases s with
    | call | member | object | property | paren | block | returnStatement | binding | identifier
    | literal => simp [checkable_iff, hs, Shape.isClass, Shape.isBlockScoped, Shape.scopeRule,
        ScopeRule.binders]
    | _ => cases h
  assign number value := by
    simp [assign, gen, checkable_iff, Shape.isClass, Shape.isBlockScoped, Shape.scopeRule,
      ScopeRule.binders]
  declarator o name value r hname := by
    simp [checkable_iff, Shape.isClass, Shape.isBlockScoped, Shape.scopeRule,
      ScopeRule.binders, hname]
  varStatement o word declarators r hword := by
    subst hword
    simp [checkable_iff, Shape.isClass, Shape.isBlockScoped, Shape.scopeRule, ScopeRule.binders,
      VarKeyword.isBlockScoped]
  program o statements r := by
    simp [checkable_iff, Shape.isClass, Shape.isBlockScoped, Shape.scopeRule, ScopeRule.binders]
  body o s r f h := by
    obtain ⟨hclass, hvar, hnamed⟩ := h
    refine ⟨?_, ?_, ?_⟩
    · rw [← hclass]
      cases s <;> rfl
    · rw [← hvar]
      cases s <;> rfl
    · have hbinders : (s.mapBody f).scopeRule.binders = s.scopeRule.binders := by cases s <;> rfl
      rwa [shape_node, hbinders]
  expression o name parameters body r r' _ := by
    simp [checkable_iff, Shape.isClass, Shape.isBlockScoped, Shape.scopeRule, ScopeRule.binders]

theorem everywhere_withConstructor {members : List Tree} (hasBase : Bool)
    (h : ∀ m ∈ members, m.Everywhere WellBound) :
    ∀ m ∈ withConstructor members hasBase, m.Everywhere WellBound := by
  refine forall_mem_withConstructor ?_ h
  cases hasBase <;>
    simp [defaultConstructor, gen, ident, name?, everywhere_node, Shape.children, wellBound_iff,
      Shape.isBlockScoped, Shape.scopeRule, ScopeRule.binders]

theorem name?_of_ownsTemps {t : Tree} (h : t.shape.ownsTemps = true) : t.name? = none := by
  rw [name?]
  split
  case h_1 hshape | h_2 hshape =>
    rw [hshape] at h
    cases h
  case h_3 => rfl

namespace Keeps

variable {t t' : Tree}

/-- A program or a function that is checkable, with temporaries declared in it. -/
theorem declaring {cs : List Tree} (owner : t.shape.ownsTemps = true)
    (h : t.Everywhere WellBound → (t.withChildren cs).Everywhere Checkable) (temps : List Nat) :
    Keeps Checkable t ((t.withChildren cs).declaring temps) := by
  refine ⟨?_, fun ht => lenient_checkable.declaring rfl (h ht) temps⟩
  have howner := (ownsTemps_declaring (t.withChildren cs) temps).trans (ownsTemps_withChildren t cs)
  rw [name?_of_ownsTemps owner, name?_of_ownsTemps (howner.trans owner)]

/-- A constructor is checkable as a property too. -/
theorem asProperty (h : Keeps Checkable t t') (kind : MemberKind) :
    Keeps Checkable t (t'.asProperty kind) := by
  refine ⟨?_, fun ht => lenient_checkable.asProperty (h.everywhere ht) kind⟩
  rw [← h.name?_eq, Tree.asProperty]
  split
  case isFalse => rfl
  case isTrue =>
    rw [constructorProperty]
    split
    case h_2 => rfl
    case h_1 hmethod =>
      rw [Tree.name?, Tree.name?, hmethod]
      rfl

/-- The code of a class is checkable if its heritage and its members are well bound. -/
theorem everywhere_createClass {options : Options} {heritage base : Option Tree}
    {members properties : List Tree}
    (above : List.Forall₂ (Keeps Checkable) heritage.toList base.toList)
    (below : List.Forall₂ (Keeps Checkable) (withConstructor members base.isSome) properties)
    (h : ∀ c ∈ heritage.toList ++ members, c.Everywhere WellBound) (hasConstructor : Bool)
    (r : Option Range) :
    (createClass options properties hasConstructor base r).Everywhere Checkable := by
  obtain ⟨hheritage, hmembers⟩ := List.forall_mem_append.mp h
  exact lenient_checkable.createClass
    (forall_mem below (everywhere_withConstructor base.isSome hmembers))
    (forall_mem above hheritage) _ _

end Keeps

end Tree

/-! ### Lowering -/

/-- **Lowered code is checkable,** unless classes are declared by `let`. -/
theorem Lowers.keeps {options : Options} (hoption : options.blockBinding = false)
    {c : Option String} {a a' : Account} {ts ts' : List Tree} (h : Lowers options c a ts ts' a') :
    List.Forall₂ (Tree.Keeps Tree.Checkable) ts ts' := by
  induction h with
  | nil => exact .nil
  | cons _ _ ihHead ihTail => exact .cons (List.forall₂_cons.mp ihHead).1 ihTail
  | @walk _ _ t cs plain _ _ ih =>
    refine .cons (.withChildren ih fun hbound => hbound.checkable ?_) .nil
    rwa [Tree.withChildren, Tree.shape_node, Shape.isClass_refill]
  | scope owner _ ih =>
    refine .cons (.declaring owner (fun ht => ?_) _) .nil
    refine Tree.Keeps.everywhere_withChildren ih ht fun hbound => hbound.checkable ?_
    exact Tree.isClass_of_ownsTemps ((ownsTemps_withChildren _ _).trans owner)
  | classDecl named _ _ ihAbove ihBelow =>
    refine .cons ⟨rfl, fun ht => Tree.lenient_checkable.declareClass
      (by simp [hoption]) named ?_ _⟩ .nil
    exact Tree.Keeps.everywhere_createClass ihAbove ihBelow
      (fun c hc => ht.child (List.mem_cons_of_mem _ hc)) _ _
  | classExprBound _ _ _ ihAbove ihBelow =>
    refine .cons ⟨rfl, fun ht => Tree.lenient_checkable.assignTemp ?_ _ _⟩ .nil
    exact Tree.Keeps.everywhere_createClass ihAbove ihBelow
      (fun c hc => ht.child (List.mem_append_right _ hc)) _ _
  | classExprFree _ _ _ ihAbove ihBelow =>
    refine .cons ⟨rfl, fun ht => ?_⟩ .nil
    exact Tree.Keeps.everywhere_createClass ihAbove ihBelow
      (fun c hc => ht.child (List.mem_append_right _ hc)) _ _
  | @member _ _ _ _ t cs cs' kind legal expanded _ ih =>
    have owner := Tree.ownsTemps_of_ofShape? legal
    have hchildren : List.Forall₂ (Tree.Keeps Tree.Checkable) t.shape.children cs' :=
      forall₂_comp .comp (expanded.forall₂' Tree.Keeps.compatible) ih
    refine .cons (.asProperty (.declaring owner (fun ht => ?_) _) kind) .nil
    refine Tree.Keeps.everywhere_withChildren hchildren ht fun hbound => hbound.checkable ?_
    exact Tree.isClass_of_ownsTemps ((ownsTemps_withChildren _ _).trans owner)

end Declass
