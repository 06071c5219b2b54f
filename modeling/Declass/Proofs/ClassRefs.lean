import Declass.Proofs.Scaffold
import Declass.Proofs.SuperUses

/-!
# References to a class from its members

Each use of `super` that is expanded becomes calls of helpers, and each of these calls takes the
class as its second argument. So the members of a lowered class hold references to the class, in the
places where the uses of `super` have been. This module lists them, each with the scopes around it.

Calls of helpers are told from other calls by the namespace that they name: it is a generated leaf,
and those bear no mark.

## Main definitions

* `Alike` — references that fare alike
* `Tree.classRefs` — the references to the class at hand in lowered code
* `Tree.Stands` — a tree that may stand for another in a call of a helper

## Main results

* `Alike.collect` — references in the children of a construct
* `Site.Direct.exists_perm`, `Site.Bound.exists_perm` — references in the code of a use of `super`
-/

namespace Declass

/-! ### References that fare alike -/

/-- The use is of the name `c`, and no scope around it binds the name. -/
def Use.RefersTo (c : String) (use : Use) : Prop :=
  use.reference.name = c ∧ use.isBound = false

instance (c : String) (use : Use) : Decidable (use.RefersTo c) :=
  inferInstanceAs (Decidable (_ ∧ _))

theorem Use.refersTo_within {c : String} {names : List String} {use : Use} :
    (use.within names).RefersTo c ↔ use.RefersTo c ∧ c ∉ names := by
  rw [RefersTo, RefersTo, isBound_within, reference_within, Bool.or_eq_false_iff,
    decide_eq_false_iff_not, and_assoc]
  refine and_congr_right fun hname => ?_
  rw [hname]

/-- Two lists of references to a class of which both are empty or none is, and of which both have a
reference to something else than `c` or none has. The latter is not asked for if `c` is the name of
a temporary. -/
structure Alike (c : String) (us us' : List Use) : Prop where
  nil_iff : us' = [] ↔ us = []
  forall_iff : ¬ IsTemp c → ((∀ use ∈ us', use.RefersTo c) ↔ ∀ use ∈ us, use.RefersTo c)

namespace Alike

variable {c : String} {us us' us'' vs vs' : List Use}

theorem refl (c : String) (us : List Use) : Alike c us us :=
  ⟨Iff.rfl, fun _ => Iff.rfl⟩

theorem trans (h₁ : Alike c us us') (h₂ : Alike c us' us'') : Alike c us us'' :=
  ⟨h₂.nil_iff.trans h₁.nil_iff, fun hc => (h₂.forall_iff hc).trans (h₁.forall_iff hc)⟩

theorem append (h₁ : Alike c us us') (h₂ : Alike c vs vs') : Alike c (us ++ vs) (us' ++ vs') where
  nil_iff := by rw [List.append_eq_nil_iff, List.append_eq_nil_iff, h₁.nil_iff, h₂.nil_iff]
  forall_iff hc := by
    rw [List.forall_mem_append, List.forall_mem_append, h₁.forall_iff hc, h₂.forall_iff hc]

theorem flatMap {α β : Type} {f : α → List Use} {g : β → List Use} {as : List α} {bs : List β}
    (h : List.Forall₂ (fun a b => Alike c (f a) (g b)) as bs) :
    Alike c (as.flatMap f) (bs.flatMap g) := by
  induction h with
  | nil => exact .refl c []
  | cons head _ ih =>
    rw [List.flatMap_cons, List.flatMap_cons]
    exact head.append ih

/-- References in a scope fare alike if the scopes agree on the name. -/
theorem within (h : Alike c us us') {names names' : List String}
    (hnames : ¬ IsTemp c → (c ∈ names' ↔ c ∈ names)) :
    Alike c (us.map (Use.within names)) (us'.map (Use.within names')) where
  nil_iff := by rw [List.map_eq_nil_iff, List.map_eq_nil_iff, h.nil_iff]
  forall_iff hc := by
    have hforall (us : List Use) (names : List String) :
        (∀ use ∈ us.map (Use.within names), use.RefersTo c) ↔
          (∀ use ∈ us, use.RefersTo c) ∧ (us ≠ [] → c ∉ names) := by
      simp only [List.forall_mem_map, Use.refersTo_within, forall_and]
      refine and_congr_right fun _ => ⟨fun h hne => ?_, fun h use hu => ?_⟩
      · obtain ⟨use, hu⟩ := List.exists_mem_of_ne_nil us hne
        exact h use hu
      · exact h (List.ne_nil_of_mem hu)
    rw [hforall, hforall, h.forall_iff hc, ne_eq, ne_eq, h.nil_iff, hnames hc]

end Alike

/-! ### References in the children of a construct -/

namespace Shape

variable {α β : Type}

/-- What is found in the children of a construct, with the scope that the construct opens around
what is found in it. -/
def collect (tree : α → Tree) (f : α → List Use) (s : Shape α) : List Use :=
  (s.scopeRule.binders ++ s.scopeRule.parts).flatMap f ++
    s.scopeRule.inner.toList.flatMap fun scope =>
      (scope.parts.flatMap f).map (Use.within (scope.map tree).bound)

theorem collect_map (k : α → β) (tree : β → Tree) (f : β → List Use) (s : Shape α) :
    (s.map k).collect tree f = s.collect (tree ∘ k) (f ∘ k) := by
  rw [collect, collect, scopeRule_map, ScopeRule.binders_map]
  generalize s.scopeRule = rule
  obtain ⟨hoisted, declared, parts, inner⟩ := rule
  cases inner <;> simp [ScopeRule.map, InnerScope.map, List.flatMap_map, Function.comp_def]

theorem collect_of_isGlue {s : Shape Tree} (h : s.isGlue = true) (f : Tree → List Use) :
    s.collect id f = s.children.flatMap f := by
  rw [collect, (scopeRule_of_isGlue h).1]
  simp [ScopeRule.binders]

theorem collect_eq_nil {tree : α → Tree} {f : α → List Use} {s : Shape α}
    (h : ∀ c ∈ s.children, f c = []) : s.collect tree f = [] := by
  rw [collect, List.append_eq_nil_iff, List.flatMap_eq_nil_iff, List.flatMap_eq_nil_iff]
  refine ⟨fun c hc => h c ?_, fun scope hscope => ?_⟩
  · rcases List.mem_append.mp hc with hc | hc
    · exact mem_children_of_mem_binders hc
    · exact mem_children_of_mem_parts hc
  · rw [List.map_eq_nil_iff, List.flatMap_eq_nil_iff]
    exact fun c hc => h c (mem_children_of_mem_inner (Option.mem_toList.mp hscope) hc)

end Shape

theorem InnerScope.map_id {α : Type} (scope : InnerScope α) : scope.map id = scope := by
  simp [InnerScope.map]

theorem InnerScope.mem_bound_iff {scope : InnerScope Tree} {c : String} :
    c ∈ scope.bound ↔
      c ∈ scope.inside.locals ∨ scope.keepsVars = true ∧ c ∈ scope.inside.vars := by
  rw [bound, inside]
  cases scope.keepsVars <;> simp [or_assoc]

theorem Effect.Renders.mem_vars_iff {names : String → Prop} {e e' : Effect}
    (h : e.Renders names e') {c : String} (hc : ¬ IsTemp c) : c ∈ e'.vars ↔ c ∈ e.vars :=
  ⟨fun hmem => (h.vars_new c hmem).resolve_right hc, fun hmem => h.vars_subset hmem⟩

/-- Scopes that are rendered bind the same names, save temporaries. -/
theorem InnerScope.mem_bound_of_renders {names : String → Prop} {scope scope' : InnerScope Tree}
    (h : scope.inside.Renders names scope'.inside) (hkeeps : scope'.keepsVars = scope.keepsVars)
    {c : String} (hc : ¬ IsTemp c) : c ∈ scope'.bound ↔ c ∈ scope.bound := by
  rw [mem_bound_iff, mem_bound_iff, h.locals_eq, h.mem_vars_iff hc, hkeeps]

theorem InnerScope.mem_bound_prepend {c : String} (hc : ¬ IsTemp c) (keepsVars : Bool)
    (names : List Tree) (words : List String) (parts : List Tree) (body : Tree) (temps : List Nat) :
    c ∈ (InnerScope.mk keepsVars names words
      (parts ++ [.prepend (.declareTemps temps) body])).bound ↔
      c ∈ (InnerScope.mk keepsVars names words (parts ++ [body])).bound := by
  let scope := InnerScope.mk keepsVars names words (parts ++ [body])
  have hrenders : scope.inside.Renders (fun _ => False)
      (Effect.andThen { vars := Tree.tempNames temps } scope.inside) :=
    (Effect.Renders.refl _ _).declare (fun _ => Tree.isTemp_of_mem_tempNames) fun _ => .inl
  rw [← inside_prepend] at hrenders
  exact mem_bound_of_renders hrenders rfl hc

theorem forall₂_and {α β : Type} {R S : α → β → Prop} {as : List α} {bs : List β}
    (h₁ : List.Forall₂ R as bs) (h₂ : List.Forall₂ S as bs) :
    List.Forall₂ (fun a b => R a b ∧ S a b) as bs := by
  induction h₁ with
  | nil => exact .nil
  | cons head _ ih =>
    cases h₂ with
    | cons head' tail' => exact .cons ⟨head, head'⟩ (ih tail')

/-- **References in the children of a construct fare alike if those in each of its children do.** -/
theorem Alike.collect {c : String} {t : Tree} {cs : List Tree} {f g : Tree → List Use}
    (renders : List.Forall₂ (Tree.Renders fun _ => True) t.shape.children cs)
    (h : List.Forall₂ (fun t t' => Alike c (f t) (g t')) t.shape.children cs) :
    Alike c (t.shape.collect id f) ((t.withChildren cs).shape.collect id g) := by
  obtain ⟨z, hfst, hsnd, hz⟩ := Shape.exists_pairs_of_forall₂ (forall₂_and renders h)
  have hpairs {ps : List (Tree × Tree)} (hps : ∀ p ∈ ps, p ∈ z.children) :
      Alike c (ps.flatMap (f ∘ Prod.fst)) (ps.flatMap (g ∘ Prod.snd)) :=
    .flatMap (List.forall₂_same.mpr fun p hp => (hz p (hps p hp)).2)
  rw [Tree.withChildren, Tree.shape_node, hsnd, hfst, Shape.collect_map, Shape.collect_map,
    Shape.collect, Shape.collect]
  refine (hpairs fun p hp => ?_).append ?_
  · rcases List.mem_append.mp hp with hp | hp
    · exact Shape.mem_children_of_mem_binders hp
    · exact Shape.mem_children_of_mem_parts hp
  · cases hscope : z.scopeRule.inner with
    | none => exact .refl c []
    | some scope =>
      simp only [Option.toList_some, List.flatMap_singleton]
      refine (hpairs fun p hp => Shape.mem_children_of_mem_inner hscope hp).within fun hc => ?_
      exact InnerScope.mem_bound_of_renders
        (Tree.Renders.inside (fun p hp => (hz p hp).1) hscope) rfl hc

/-! ### Calls of helpers -/

namespace Tree

/-- Whether the tree is a generated use of a name. -/
def isGenerated (t : Tree) : Bool :=
  match t.origin, t.shape with
  | none, .identifier _ => true
  | _, _ => false

/-- The name of the helper that generated code gets from its namespace. -/
def helperName? (t : Tree) : Option String :=
  match t.shape with
  | .member space name => if space.isGenerated then some name else none
  | _ => none

end Tree

/-- The name of the helper that is called. -/
def Shape.helper? : Shape Tree → Option String
  | .call callee _ => callee.helperName?
  | _ => none

namespace Tree

/-- The reference to a class that a call of a helper has as its second argument. -/
def ownRef (call : Shape Tree) : List Use :=
  (call.children[2]?.bind fun c => c.shape.use? c.range).toList.map fun reference => ⟨reference, []⟩

/-- The references to the class at hand, from the calls of helpers in code of one of its members,
each with the scopes around it. Of another class only the heritage is part of that code. -/
def classRefs : Tree → List Use :=
  para fun _ shape _ => match (shape.map Prod.fst).helper?, shape.classParts? with
    | some name, _ =>
      if name = Helper.createClass.name then (shape.children.drop 2).flatMap Prod.snd
      else ownRef (shape.map Prod.fst) ++ shape.children.flatMap Prod.snd
    | none, some parts => parts.heritage.toList.flatMap Prod.snd
    | none, none => shape.collect Prod.fst Prod.snd

/-- No helper is called in the tree. -/
def Helperless : Tree → Prop :=
  Everywhere fun t => t.shape.helper? = none

theorem classRefs_eq (t : Tree) :
    t.classRefs = match t.shape.helper?, t.shape.classParts? with
      | some name, _ =>
        if name = Helper.createClass.name then (t.shape.children.drop 2).flatMap classRefs
        else ownRef t.shape ++ t.shape.children.flatMap classRefs
      | none, some parts => parts.heritage.toList.flatMap classRefs
      | none, none => t.shape.collect id classRefs := by
  obtain ⟨o, s, r⟩ := t
  have hself : (s.map fun c => (c, classRefs c)).map Prod.fst = s := by
    rw [Shape.map_map]
    exact Shape.map_id s
  rw [classRefs, para_node, ← classRefs, hself, Shape.classParts?_map, Shape.children_map,
    Shape.collect_map, shape_node]
  cases s.helper? with
  | some name => simp [List.flatMap_map, ← List.map_drop]
  | none =>
    cases s.classParts? with
    | none => rfl
    | some parts => cases hheritage : parts.heritage <;> simp [ClassParts.map, hheritage]

variable {t : Tree}

theorem classRefs_of_helper? {name : String} (h : t.shape.helper? = some name)
    (hname : name ≠ Helper.createClass.name) :
    t.classRefs = ownRef t.shape ++ t.shape.children.flatMap classRefs := by
  rw [classRefs_eq, h]
  exact if_neg hname

/-- Of the call that creates a class, the arguments behind the first count. -/
theorem classRefs_of_creates (h : t.shape.helper? = some Helper.createClass.name) :
    t.classRefs = (t.shape.children.drop 2).flatMap classRefs := by
  rw [classRefs_eq, h]
  exact if_pos rfl

/-- The class references of a class are those of its heritage. -/
theorem classRefs_of_class {parts : ClassParts Tree} (h : t.shape.classParts? = some parts) :
    t.classRefs = parts.heritage.toList.flatMap classRefs := by
  have hhelper : t.shape.helper? = none := by
    generalize t.shape = s at h
    cases s <;> first | rfl | cases h
  rw [classRefs_eq, hhelper, h]

/-- The class references of a construct are those in its parts. -/
theorem classRefs_of_plain (h : t.shape.helper? = none) (plain : t.shape.isClass = false) :
    t.classRefs = t.shape.collect id classRefs := by
  rw [classRefs_eq, h, Shape.classParts?_eq_none plain]

theorem classRefs_of_isGlue (h : t.shape.helper? = none) (glue : t.shape.isGlue = true) :
    t.classRefs = t.shape.children.flatMap classRefs := by
  rw [classRefs_of_plain h (Shape.isClass_of_isGlue glue), Shape.collect_of_isGlue glue]

theorem classRefs_of_isLeaf (h : t.shape.isLeaf = true) : t.classRefs = [] := by
  have hhelper : t.shape.helper? = none := by
    generalize t.shape = s at h
    cases s <;> first | rfl | cases h
  rw [classRefs_of_plain hhelper (Shape.isClass_of_isLeaf h)]
  exact Shape.collect_eq_nil (by simp [Shape.children_eq_nil_of_isLeaf h])

theorem Helperless.classRefs_eq_nil (h : t.Helperless) : t.classRefs = [] := by
  induction h with
  | @node o s r root _ ih =>
    cases hparts : s.classParts? with
    | some parts =>
      rw [classRefs_of_class (t := .node o s r) hparts, List.flatMap_eq_nil_iff]
      exact fun c hc => ih c (Shape.mem_children_of_mem_heritage hparts (Option.mem_toList.mp hc))
    | none =>
      have plain : s.isClass = false := by cases s <;> first | rfl | cases hparts
      rw [classRefs_of_plain root plain]
      exact Shape.collect_eq_nil ih

end Tree

/-! ### Trees in the place of others -/

/-- Whether a construct is a use of a name or of a named member. -/
def Shape.isReference {α : Type} : Shape α → Bool
  | .identifier _ | .member .. => true
  | _ => false

namespace Tree

/-- A call of a helper can tell nothing of the tree. -/
structure Inert (t : Tree) : Prop where
  isGenerated : t.isGenerated = false
  helperName? : t.helperName? = none
  use? : t.shape.use? t.range = none

/-- A call of a helper can tell nothing of one tree that it cannot tell of the other. -/
structure Stands (t t' : Tree) : Prop where
  isGenerated_eq : t'.isGenerated = t.isGenerated
  helperName?_eq : t'.helperName? = t.helperName?
  use?_eq : t'.shape.use? t'.range = t.shape.use? t.range

variable {t t' : Tree}

theorem inert_of_isReference (h : t.shape.isReference = false) : t.Inert := by
  obtain ⟨o, s, r⟩ := t
  rw [shape_node] at h
  refine ⟨?_, ?_, ?_⟩
  · cases o <;> cases s <;> first | rfl | cases h
  · cases s <;> first | rfl | cases h
  · cases s <;> first | rfl | cases h

theorem inert_of_ownsTemps (h : t.shape.ownsTemps = true) : t.Inert := by
  refine inert_of_isReference ?_
  generalize t.shape = s at h
  cases s <;> first | rfl | cases h

theorem inert_of_superRole {use : SuperUse Tree} (role : t.superRole = .use use) : t.Inert := by
  obtain ⟨o, s, r⟩ := t
  have huse := Shape.isUse_of_superRole role
  rw [shape_node] at huse
  cases huse with
  | call | methodCall | assign | compound | update | bare => exact inert_of_isReference rfl
  | get target =>
    cases s with
    | member space name =>
      have hword : space.shape = .superExpr := by
        simp only [Shape.superAccess?] at target
        split at target
        · exact shape_eq_superExpr (by simpa using ‹_›)
        · cases target
      have hspace : space.isGenerated = false := (inert_of_isReference (by rw [hword]; rfl)).1
      exact ⟨by cases o <;> rfl, by simp [Tree.helperName?, hspace], rfl⟩
    | lookup => exact inert_of_isReference rfl
    | _ => cases target

theorem Inert.stands (h : t.Inert) (h' : t'.Inert) : Stands t t' :=
  ⟨h'.1.trans h.1.symm, h'.2.trans h.2.symm, h'.3.trans h.3.symm⟩

namespace Stands

theorem refl (t : Tree) : Stands t t :=
  ⟨rfl, rfl, rfl⟩

variable {cs : List Tree}

/-- A construct stands for one with parts that stand for its own. -/
theorem withChildren (h : List.Forall₂ Stands t.shape.children cs) :
    Stands t (t.withChildren cs) := by
  obtain ⟨o, s, r⟩ := t
  obtain ⟨z, rfl : s = _, hsnd, hz⟩ := Shape.exists_pairs_of_forall₂ h
  rw [Tree.withChildren, hsnd]
  refine ⟨by cases o <;> cases z <;> rfl, ?_, ?_⟩
  · cases z with
    | member p name =>
      simp only [helperName?, shape_node, Shape.map, (hz p (by simp [Shape.children])).1]
    | _ => rfl
  · simp only [shape_node, range_node, Shape.use?_map]

/-- A construct calls the same helper with other children. -/
theorem helper?_eq (h : List.Forall₂ Stands t.shape.children cs) :
    (t.withChildren cs).shape.helper? = t.shape.helper? := by
  obtain ⟨z, hfst, hsnd, hz⟩ := Shape.exists_pairs_of_forall₂ h
  rw [Tree.withChildren, shape_node, hsnd, hfst]
  cases z with
  | call p arguments => exact (hz p (by simp [Shape.children])).2
  | _ => rfl

/-- A call has the same second argument with other children. -/
theorem ownRef_eq (h : List.Forall₂ Stands t.shape.children cs) :
    ownRef (t.withChildren cs).shape = ownRef t.shape := by
  obtain ⟨z, hfst, hsnd, hz⟩ := Shape.exists_pairs_of_forall₂ h
  rw [Tree.withChildren, shape_node, hsnd, hfst, ownRef, ownRef, Shape.children_map,
    Shape.children_map, List.getElem?_map, List.getElem?_map]
  cases hp : z.children[2]? with
  | none => rfl
  | some p =>
    simp only [Option.map_some, Option.bind_some, (hz p (List.mem_of_getElem? hp)).use?_eq]

end Stands

end Tree

/-! ### References in generated code -/

/-- The reference that a call of a helper has. -/
def Site.ref (site : Site) : Use :=
  ⟨⟨site.className, none⟩, []⟩

namespace Site

open Declass.Tree

variable {site : Site} {key value : Tree} {range : Option Range}

theorem classRefs_helperCall {helper : Helper} (hhelper : helper.name ≠ Helper.createClass.name)
    (arguments : List Tree) : (site.helperCall helper arguments range).classRefs =
      site.ref :: arguments.flatMap classRefs := by
  have hspace : (ident site.runtimeName).classRefs = [] := classRefs_of_isLeaf rfl
  have hcallee : (Tree.helper site.runtimeName helper).classRefs = [] := by
    rw [Tree.helper, gen, classRefs_of_isGlue rfl rfl]
    simp [Shape.children, hspace]
  have hthis : (gen .thisExpr).classRefs = [] := classRefs_of_isLeaf rfl
  have hclass : (ident site.className).classRefs = [] := classRefs_of_isLeaf rfl
  have hown : ownRef (.call (.helper site.runtimeName helper)
      (gen .thisExpr :: ident site.className :: arguments)) = [site.ref] := rfl
  rw [helperCall, classRefs_of_helper? rfl hhelper, shape_node, hown]
  simp [Shape.children, hcallee, hthis, hclass]

theorem classRefs_superGet : (site.superGet key range).classRefs = site.ref :: key.classRefs := by
  rw [superGet, classRefs_helperCall (by decide)]
  simp

theorem classRefs_superSet : (site.superSet key value range).classRefs =
    site.ref :: (key.classRefs ++ value.classRefs) := by
  rw [superSet, classRefs_helperCall (by decide)]
  simp

theorem classRefs_superCall (arguments : List Tree) :
    (site.superCall key arguments range).classRefs =
      site.ref :: (key.classRefs ++ arguments.flatMap classRefs) := by
  have harray : (gen (.array arguments)).classRefs = arguments.flatMap classRefs :=
    classRefs_of_isGlue rfl rfl
  rw [superCall, classRefs_helperCall (by decide)]
  simp [harray]

/-- A key that is written down twice has no references. -/
theorem classRefs_compound (hkey : key.classRefs = []) (operator : String) :
    (site.compound key operator value range).classRefs =
      List.replicate 2 site.ref ++ value.classRefs := by
  rw [compound]
  split
  · rw [classRefs_of_isGlue rfl rfl]
    simp [Shape.children, classRefs_superGet, classRefs_superSet, hkey]
  · have hbinary : (gen (.binary (site.superGet key none) operator value)).classRefs =
        site.ref :: value.classRefs := by
      rw [gen, classRefs_of_isGlue rfl rfl]
      simp [Shape.children, classRefs_superGet, hkey]
    simp [classRefs_superSet, hkey, hbinary]

theorem classRefs_update (hkey : key.classRefs = []) (operator : String) :
    (site.update key operator range).classRefs = List.replicate 2 site.ref := by
  have hunary : (gen (.unary "+" (site.superGet key none))).classRefs = [site.ref] := by
    rw [gen, classRefs_of_isGlue rfl rfl]
    simp [Shape.children, classRefs_superGet, hkey]
  have hone : (gen (.literal (.number "1"))).classRefs = [] := classRefs_of_isLeaf rfl
  have hbinary : (gen (.binary (gen (.unary "+" (site.superGet key none))) operator
      (gen (.literal (.number "1"))))).classRefs = [site.ref] := by
    rw [gen, classRefs_of_isGlue rfl rfl]
    simp [Shape.children, hunary, hone]
  simp [update, classRefs_superSet, hkey, hbinary]

theorem classRefs_sequence (number : Nat) (expression : Tree) :
    (sequence number key expression range).classRefs = key.classRefs ++ expression.classRefs := by
  have htemp : (temp number).classRefs = [] := classRefs_of_isLeaf rfl
  have hassign : (assign (temp number) key).classRefs = key.classRefs := by
    rw [assign, gen, classRefs_of_isGlue rfl rfl]
    simp [Shape.children, htemp]
  have hcomma : (gen (.comma [assign (temp number) key, expression])).classRefs =
      key.classRefs ++ expression.classRefs := by
    rw [gen, classRefs_of_isGlue rfl rfl]
    simp [Shape.children, hassign]
  rw [sequence, classRefs_of_isGlue rfl rfl]
  simp [Shape.children, hcomma]

theorem Key.classRefs_eq {access : MemberKey Tree} {keys : List Tree} (h : Key access keys key) :
    key.classRefs = keys.flatMap classRefs := by
  cases h with
  | named => exact classRefs_of_isLeaf rfl
  | computed => simp

/-- **The code of a use refers to the class at least once, and else where its operands do.** -/
theorem Direct.exists_perm {use : SuperUse Tree} {operands : List Tree} {t : Tree}
    (code : site.Direct range use operands t) :
    ∃ n, t.classRefs.Perm (List.replicate (n + 1) site.ref ++ operands.flatMap classRefs) := by
  have htext (value : String) : (text value).classRefs = [] := classRefs_of_isLeaf rfl
  cases code with
  | call => exact ⟨0, by simp [classRefs_superCall, htext]⟩
  | methodCall written => exact ⟨0, by simp [classRefs_superCall, written.classRefs_eq]⟩
  | assign written => exact ⟨0, by simp [classRefs_superSet, written.classRefs_eq]⟩
  | get written => exact ⟨0, by simp [classRefs_superGet, written.classRefs_eq]⟩
  | compound => exact ⟨1, by simp [classRefs_compound (htext _)]⟩
  | update => exact ⟨1, by simp [classRefs_update (htext _)]⟩

theorem Bound.exists_perm {number : Nat} {use : SuperUse Tree} {rest : List Tree} {t : Tree}
    (code : site.Bound range number use key rest t) :
    ∃ n, t.classRefs.Perm (List.replicate (n + 1) site.ref ++ (key :: rest).flatMap classRefs) := by
  have htemp : (temp number).classRefs = [] := classRefs_of_isLeaf rfl
  refine ⟨1, ?_⟩
  rw [List.flatMap_cons]
  cases code with
  | compound =>
    rw [classRefs_sequence, classRefs_compound htemp, List.flatMap_singleton]
    exact List.perm_append_comm_assoc _ _ _
  | update =>
    rw [classRefs_sequence, classRefs_update htemp, List.flatMap_nil, List.append_nil]
    exact List.perm_append_comm

/-- The code of a use is a call, an operator or in parentheses. -/
theorem Direct.inert {use : SuperUse Tree} {operands : List Tree} {t : Tree}
    (code : site.Direct range use operands t) : t.Inert := by
  refine inert_of_isReference ?_
  cases code with
  | compound =>
    rw [Site.compound]
    split <;> rfl
  | _ => rfl

end Site

end Declass
