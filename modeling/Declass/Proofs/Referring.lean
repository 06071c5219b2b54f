import Declass.Proofs.ClassRefs

/-!
# References to a class through the lowering

This module follows the references to a class from the uses of `super` that they stem from to the
lowered members. The references in a lowered member stand under scopes that bind the same names as
those around the uses, save temporaries.

## Main definitions

* `Tree.superRefs`, `Tree.memberRefs` — the references that the uses of `super` give rise to

## Main results

* `Expands.alike` — the references in expanded code are those of the uses
* `Lowers.alike` — lowering code keeps the references in it
* `Lowers.alike_members` — the references in lowered members
-/

namespace Declass

/-! ### Expansion -/

namespace Tree

/-- The references that the uses of `super` in a tree give rise to, where they are expanded. -/
def superRefs (site : Site) (t : Tree) : List Use :=
  (t.superScopes site.kind).map fun chain => ⟨site.ref.reference, chain⟩

/-- The references that the uses of `super` in a member of the class `c` give rise to. -/
def memberRefs (c : String) (t : Tree) : List Use :=
  t.memberScopes.map fun chain => ⟨⟨c, none⟩, chain⟩

theorem map_placed (reference : Reference) (f : Tree → List ScopeChain) (s : Shape Tree) :
    ((s.placed id).flatMap fun v => (f v.1).map (· ++ v.2)).map (fun chain => ⟨reference, chain⟩) =
      s.collect id fun t => (f t).map fun chain => ⟨reference, chain⟩ := by
  have hwithin (names : List String) (chains : List ScopeChain) :
      chains.map (fun chain => (⟨reference, chain ++ [names]⟩ : Use)) =
        (chains.map fun chain => ⟨reference, chain⟩).map (Use.within names) := by
    rw [List.map_map]
    rfl
  rw [Shape.placed, Shape.collect]
  cases s.scopeRule.inner <;>
    simp [List.map_flatMap, List.flatMap_map, hwithin, InnerScope.map_id, Function.comp_def]

section Roles

variable {site : Site} {t : Tree}

theorem superRefs_use {use : SuperUse Tree} (role : t.superRole = .use use) :
    t.superRefs site = (if use.isExpanded site.kind then [site.ref] else []) ++
      use.operands.flatMap (superRefs site) := by
  rw [superRefs, superScopes_use role, List.map_append, List.map_flatMap]
  split <;> rfl

theorem superRefs_other (role : t.superRole = .other) :
    t.superRefs site = t.shape.collect id (superRefs site) := by
  rw [superRefs, superScopes_other role, map_placed]
  rfl

theorem superRefs_class {parts : ClassParts Tree} (h : t.shape.classParts? = some parts) :
    t.superRefs site = parts.heritage.toList.flatMap (superRefs site) := by
  rw [superRefs, superScopes_class h, List.map_flatMap]
  rfl

end Roles

end Tree

namespace Expands

open Declass.Tree

variable {site : Site} {nested : Bool} {a a' : Account} {ts ts' : List Tree}

/-- Below another function nothing is expanded. -/
theorem eq_of_nested (h : Expands site true a ts ts' a') : ts' = ts := by
  have heritage_eq {h h' : Option Tree} (heq : h'.toList = h.toList) : h' = h := by
    cases h <;> cases h' <;> simp_all
  generalize hnested : true = nested at h
  induction h with
  | nil => rfl
  | cons _ _ ihHead ihTail => rw [ihTail hnested, (List.cons.inj (ihHead hnested)).1]
  | walk _ _ ih => rw [ih hnested, withChildren_children]
  | enter _ _ ih => rw [ih rfl, withChildren_children]
  | classDecl _ ih | classExpr _ ih => rw [heritage_eq (ih hnested)]
  | misplaced => rfl
  | bare | stray | direct | bound => cases hnested

theorem stands (h : Expands site nested a ts ts' a') : List.Forall₂ Stands ts ts' := by
  have single {t t' : Tree} (h : Stands t t') : List.Forall₂ Stands [t] [t'] := .cons h .nil
  induction h with
  | nil => exact .nil
  | cons _ _ ihHead ihTail => exact .cons (List.forall₂_cons.mp ihHead).1 ihTail
  | walk _ _ ih | enter _ _ ih => exact single (.withChildren ih)
  | classDecl | classExpr =>
    exact single ((inert_of_isReference rfl).stands (inert_of_isReference rfl))
  | misplaced | bare => exact single (.refl _)
  | stray role => exact single ((inert_of_superRole role).stands (inert_of_isReference rfl))
  | direct role _ code => exact single ((inert_of_superRole role).stands code.inert)
  | bound role _ _ _ code =>
    refine single ((inert_of_superRole role).stands (inert_of_isReference ?_))
    cases code <;> rfl

/-- A use that is expanded refers to the class, beside what its operands refer to. -/
theorem alike_of_use {t t' : Tree} {use : SuperUse Tree} {operands : List Tree}
    (role : t.superRole = .use use) (expanded : use.isExpanded site.kind = true)
    (h : List.Forall₂ (fun t t' => Alike site.className (t.superRefs site) t'.classRefs)
      use.operands operands)
    (code : ∃ n, t'.classRefs.Perm
      (List.replicate (n + 1) site.ref ++ operands.flatMap classRefs)) :
    Alike site.className (t.superRefs site) t'.classRefs := by
  obtain ⟨n, hperm⟩ := code
  have hoperands := Alike.flatMap h
  have href : site.ref.RefersTo site.className := ⟨rfl, rfl⟩
  rw [superRefs_use role, if_pos expanded]
  refine ⟨?_, fun hc => ?_⟩
  · rw [← List.length_eq_zero_iff, hperm.length_eq]
    simp
  · simp only [hperm.mem_iff, List.forall_mem_append, hoperands.forall_iff hc]
    simp [href]

/-- **The references in expanded code are those that its uses of `super` give rise to.** -/
theorem alike (h : Expands site nested a ts ts' a') (hnested : nested = false)
    (hts : ∀ t ∈ ts, t.Helperless) :
    List.Forall₂ (fun t t' => Alike site.className (t.superRefs site) t'.classRefs) ts ts' := by
  have single {t t' : Tree} (h : Alike site.className (t.superRefs site) t'.classRefs) :
      List.Forall₂ (fun t t' => Alike site.className (t.superRefs site) t'.classRefs) [t] [t'] :=
    .cons h .nil
  induction h with
  | nil => exact .nil
  | cons _ _ ihHead ihTail =>
    obtain ⟨hhead, htail⟩ := List.forall_mem_cons.mp hts
    have head := ihHead hnested (List.forall_mem_singleton.mpr hhead)
    exact .cons (List.forall₂_cons.mp head).1 (ihTail hnested htail)
  | @walk _ _ _ t cs role below ih =>
    have hless : t.Helperless := List.forall_mem_singleton.mp hts
    have plain : t.shape.isClass = false := isClass_of_superRole_ne (by simp [role])
    have hhelper : (t.withChildren cs).shape.helper? = none :=
      (Stands.helper?_eq below.stands).trans hless.root
    refine single ?_
    rw [superRefs_other role, classRefs_of_plain hhelper]
    · exact .collect (below.forall₂' compatible_renders) (ih hnested fun c hc => hless.child hc)
    · rwa [Tree.withChildren, shape_node, Shape.isClass_refill]
  | enter role below =>
    have hless := List.forall_mem_singleton.mp hts
    refine single ?_
    rw [below.eq_of_nested, withChildren_children, hless.classRefs_eq_nil, superRefs,
      superScopes_nestedFunction role]
    exact .refl _ []
  | classDecl _ ih =>
    have hless := List.forall_mem_singleton.mp hts
    refine single ?_
    rw [superRefs_class rfl, classRefs_of_class rfl]
    refine .flatMap (ih hnested fun c hc => hless.child ?_)
    simp [Shape.children, hc]
  | classExpr _ ih =>
    have hless := List.forall_mem_singleton.mp hts
    refine single ?_
    rw [superRefs_class rfl, classRefs_of_class rfl]
    refine .flatMap (ih hnested fun c hc => hless.child ?_)
    simp [Shape.children, hc]
  | misplaced => cases hnested
  | bare role =>
    refine single ?_
    rw [superRefs_use role, (List.forall_mem_singleton.mp hts).classRefs_eq_nil]
    exact .refl _ []
  | @stray _ _ t word _ arguments' role kind _ ih =>
    have hless := List.forall_mem_singleton.mp hts
    have hshape := Shape.eq_call_of_superRole role
    have hword : word.Helperless := hless.child (by rw [hshape]; exact List.mem_cons_self)
    have hhelper : t.shape.helper? = none := hless.root
    rw [hshape] at hhelper
    refine single ?_
    rw [superRefs_use role, classRefs_of_isGlue (t := .node _ (.call _ arguments') _) hhelper rfl]
    simp only [SuperUse.isExpanded, kind, decide_false, Bool.false_eq_true, if_false,
      List.nil_append, shape_node, Shape.children, List.flatMap_cons, hword.classRefs_eq_nil]
    exact .flatMap (ih rfl fun c hc => hless.operand role hc)
  | direct role _ code ih =>
    have hless := List.forall_mem_singleton.mp hts
    exact single (alike_of_use role code.isExpanded (ih rfl fun c hc => hless.operand role hc)
      code.exists_perm)
  | @bound _ _ _ _ _ _ _ _ _ _ role operands _ _ code ihKey ihRest =>
    have hless := fun c hc => (List.forall_mem_singleton.mp hts).operand (c := c) role hc
    rw [operands] at hless
    obtain ⟨hindex, hrest⟩ := List.forall_mem_cons.mp hless
    refine single (alike_of_use role code.isExpanded ?_ code.exists_perm)
    have key := ihKey rfl (List.forall_mem_singleton.mpr hindex)
    rw [operands]
    exact .cons (List.forall₂_cons.mp key).1 (ihRest rfl hrest)

end Expands

/-! ### Temporaries and classes -/

namespace Tree

variable {t : Tree}

/-- The call of a helper has no temporaries of its own. -/
theorem helper?_of_ownsTemps (owner : t.shape.ownsTemps = true) : t.shape.helper? = none := by
  generalize t.shape = s at owner
  cases s <;> first | rfl | cases owner

theorem classRefs_of_ownsTemps (owner : t.shape.ownsTemps = true) :
    t.classRefs = t.shape.collect id classRefs :=
  classRefs_of_plain (helper?_of_ownsTemps owner) (isClass_of_ownsTemps owner)

theorem classRefs_declareTemps (temps : List Nat) : (declareTemps temps).classRefs = [] := by
  have hdeclarator (number : Nat) :
      (gen (.declarator (gen (.binding (Temps.name number))) none)).classRefs = [] := by
    rw [gen, classRefs_of_plain rfl rfl]
    refine Shape.collect_eq_nil ?_
    simpa [Shape.children] using classRefs_of_isLeaf (t := gen (.binding _)) rfl
  rw [declareTemps, gen, classRefs_of_plain rfl rfl]
  refine Shape.collect_eq_nil ?_
  simpa [Shape.children] using fun number _ => hdeclarator number

theorem classRefs_prepend (temps : List Nat) (body : Tree) :
    (prepend (declareTemps temps) body).classRefs = body.classRefs := by
  have hstatements : body.statements.flatMap classRefs = body.classRefs := by
    rw [statements]
    split
    case h_1 hblock =>
      rw [classRefs_of_plain (t := body) (by rw [hblock]; rfl) (by rw [hblock]; rfl), hblock]
      simp [Shape.collect, Shape.scopeRule, Shape.children, ScopeRule.binders]
    case h_2 =>
      rw [List.flatMap_singleton, classRefs_of_plain rfl rfl]
      simp [Shape.collect, Shape.scopeRule, Shape.children, ScopeRule.binders]
  rw [prepend, classRefs_of_plain rfl rfl]
  simp [Shape.collect, Shape.scopeRule, Shape.children, ScopeRule.binders, classRefs_declareTemps,
    hstatements]

/-- Declaring temporaries does not touch the references around. -/
theorem alike_declaring (c : String) (owner : t.shape.ownsTemps = true) (temps : List Nat) :
    Alike c t.classRefs (t.declaring temps).classRefs := by
  have howner := (ownsTemps_declaring t temps).trans owner
  rw [classRefs_of_ownsTemps owner, classRefs_of_ownsTemps howner, declaring]
  split
  case isTrue => exact .refl _ _
  case isFalse =>
    rw [shape_node]
    have ofFunction (hfunction : t.shape.isFunctionLike = true) :
        Alike c (t.shape.collect id classRefs)
          ((t.shape.mapBody (prepend (declareTemps temps))).collect id classRefs) := by
      obtain ⟨hoisted, names, words, parts, body, hrule⟩ :=
        Shape.scopeRule_of_isFunctionLike hfunction
      have hrule₀ := t.shape.mapBody_id ▸ hrule id
      simp only [Shape.collect, hrule, hrule₀, Option.toList_some, List.flatMap_singleton]
      refine (Alike.refl c _).append ?_
      rw [List.flatMap_append, List.flatMap_append, List.flatMap_singleton, List.flatMap_singleton,
        classRefs_prepend]
      refine (Alike.refl c _).within fun hc => ?_
      rw [InnerScope.map_id, InnerScope.map_id]
      exact InnerScope.mem_bound_prepend hc _ _ _ _ _ _
    cases hs : t.shape with
    | program statements =>
      simp [Shape.declaring, Shape.collect, Shape.scopeRule, Shape.children, ScopeRule.binders,
        classRefs_declareTemps, Alike.refl]
    | functionDecl | functionExpr | arrow | method | getter | setter =>
      rw [hs] at ofFunction
      exact ofFunction rfl
    | _ => rw [hs] at owner; cases owner

/-- A member has the same references as a property. -/
theorem classRefs_asProperty {kind : MemberKind} (h : MemberKind.ofShape? t.shape = some kind) :
    (t.asProperty kind).classRefs = t.classRefs := by
  rw [asProperty]
  split
  case isFalse => rfl
  case isTrue hkind =>
    obtain ⟨o, s, r⟩ := t
    obtain ⟨name, parameters, body, rfl : s = _⟩ := isConstructor_of_ofShape? (hkind ▸ h)
    have hfunction : (Tree.node none (.functionExpr none parameters body) r).classRefs =
        (Tree.node o (.method name parameters body) r).classRefs := by
      rw [classRefs_of_ownsTemps rfl, classRefs_of_ownsTemps rfl]
      rfl
    rw [constructorProperty, shape_node, classRefs_of_plain rfl rfl]
    simp [Shape.collect, Shape.scopeRule, Shape.children, ScopeRule.binders, hfunction]

theorem classRefs_createClass (options : Options) (properties : List Tree) (hasConstructor : Bool)
    (base : Option Tree) (r : Option Range) :
    (createClass options properties hasConstructor base r).classRefs =
      base.toList.flatMap classRefs := by
  have hliteral (value : Literal) : (gen (.literal value)).classRefs = [] := classRefs_of_isLeaf rfl
  rw [classRefs_of_creates rfl]
  cases base <;> simp [createClass, Shape.children, boolean, hliteral]

theorem classRefs_of_name? {name : String} (h : t.name? = some name) : t.classRefs = [] := by
  refine classRefs_of_isLeaf ?_
  rw [name?] at h
  generalize t.shape = s at h
  cases s <;> first | rfl | cases h

theorem classRefs_declareClass (options : Options) {name : Tree} {c : String}
    (named : name.name? = some c) (call : Tree) (r : Option Range) :
    (declareClass options name call r).classRefs = call.classRefs := by
  have hdeclarator :
      (Tree.node none (.declarator name (some call)) r).classRefs = call.classRefs := by
    rw [classRefs_of_plain rfl rfl]
    simp [Shape.collect, Shape.scopeRule, ScopeRule.binders, classRefs_of_name? named]
  rw [declareClass, classRefs_of_plain rfl rfl]
  simp [Shape.collect, Shape.scopeRule, Shape.children, ScopeRule.binders, hdeclarator]

theorem classRefs_assignTemp (number : Nat) (value : Tree) (r : Option Range) :
    (Tree.node none (.paren (.assign (.temp number) value)) r).classRefs = value.classRefs := by
  have htemp : (temp number).classRefs = [] := classRefs_of_isLeaf rfl
  have hassign : (assign (temp number) value).classRefs = value.classRefs := by
    rw [assign, gen, classRefs_of_isGlue rfl rfl]
    simp [Shape.children, htemp]
  rw [classRefs_of_isGlue rfl rfl]
  simp [Shape.children, hassign]

end Tree

/-! ### Lowering -/

open Declass.Tree in
/-- **References in a construct fare alike if those in its children do.** -/
theorem Alike.withChildren {c : String} {t : Tree} {cs : List Tree}
    (plain : t.shape.isClass = false)
    (stands : List.Forall₂ Stands t.shape.children cs)
    (renders : List.Forall₂ (Tree.Renders fun _ => True) t.shape.children cs)
    (h : List.Forall₂ (fun t t' => Alike c t.classRefs t'.classRefs) t.shape.children cs) :
    Alike c t.classRefs (t.withChildren cs).classRefs := by
  have hhelper := Stands.helper?_eq stands
  cases hname : t.shape.helper? with
  | none =>
    rw [classRefs_of_plain hname plain, classRefs_of_plain (hhelper.trans hname)]
    · exact .collect renders h
    · rwa [Tree.withChildren, shape_node, Shape.isClass_refill]
  | some name =>
    have hchildren : (t.withChildren cs).shape.children = cs :=
      Shape.children_refill h.length_eq.symm
    by_cases hcreate : name = Helper.createClass.name
    · subst hcreate
      rw [classRefs_of_creates hname, classRefs_of_creates (hhelper.trans hname), hchildren]
      exact .flatMap (List.forall₂_drop 2 h)
    · rw [classRefs_of_helper? hname hcreate, classRefs_of_helper? (hhelper.trans hname) hcreate,
        Stands.ownRef_eq stands, hchildren]
      exact (Alike.refl c _).append (.flatMap h)

namespace Lowers

open Declass.Tree

variable {options : Options} {cx : Option String} {a a' : Account} {ts ts' : List Tree}

/-- Where a scope is open, lowering leaves one open. -/
theorem scopes_ne_nil (h : Lowers options cx a ts ts' a') (hscopes : a.temps.scopes ≠ []) :
    a'.temps.scopes ≠ [] := by
  obtain ⟨new, resolves⟩ := h.exists_resolves hscopes
  exact resolves.gains.scopes_ne_nil

theorem renders (h : Lowers options cx a ts ts' a') (hscopes : a.temps.scopes ≠ []) :
    List.Forall₂ (Tree.Renders fun _ => True) ts ts' := by
  obtain ⟨new, resolves⟩ := h.exists_resolves hscopes
  exact resolves.renders trivial (fun _ _ => trivial) fun _ _ _ => trivial

theorem stands (h : Lowers options none a ts ts' a') : List.Forall₂ Stands ts ts' := by
  have single {t t' : Tree} (h : t.Inert) (h' : t'.Inert) : List.Forall₂ Stands [t] [t'] :=
    .cons (h.stands h') .nil
  generalize hc : none = cx at h
  induction h with
  | nil => exact .nil
  | cons _ _ ihHead ihTail => exact .cons (List.forall₂_cons.mp (ihHead hc)).1 (ihTail hc)
  | walk _ _ _ ih => exact .cons (.withChildren (ih rfl)) .nil
  | @scope _ _ t cs owner =>
    refine single (inert_of_ownsTemps owner) (inert_of_ownsTemps ?_)
    exact (ownsTemps_declaring _ _).trans ((ownsTemps_withChildren t cs).trans owner)
  | classDecl | classExprBound | classExprFree =>
    exact single (inert_of_isReference rfl) (inert_of_isReference rfl)
  | member => cases hc

/-- **Lowering code keeps the references in it.** -/
theorem alike (h : Lowers options none a ts ts' a') (hscopes : a.temps.scopes ≠ []) (c : String) :
    List.Forall₂ (fun t t' => Alike c t.classRefs t'.classRefs) ts ts' := by
  have single {t t' : Tree} (h : Alike c t.classRefs t'.classRefs) :
      List.Forall₂ (fun t t' => Alike c t.classRefs t'.classRefs) [t] [t'] := .cons h .nil
  generalize hcx : none = cx at h
  induction h with
  | nil => exact .nil
  | cons head _ ihHead ihTail =>
    exact .cons (List.forall₂_cons.mp (ihHead hscopes hcx)).1
      (ihTail (head.scopes_ne_nil hscopes) hcx)
  | walk plain _ below ih =>
    exact single (.withChildren plain below.stands (below.renders hscopes) (ih hscopes rfl))
  | @scope b _ t cs owner below ih =>
    have hopen : b.openScope.temps.scopes ≠ [] := List.cons_ne_nil _ _
    refine single (Alike.trans ?_ (alike_declaring c ((ownsTemps_withChildren t cs).trans owner) _))
    have plain := isClass_of_ownsTemps owner
    exact .withChildren plain below.stands (below.renders hopen) (ih hopen rfl)
  | classDecl named _ _ ihAbove =>
    refine single ?_
    rw [classRefs_declareClass _ named, classRefs_createClass, classRefs_of_class rfl]
    exact .flatMap (ihAbove hscopes rfl)
  | classExprBound _ _ _ ihAbove =>
    refine single ?_
    rw [classRefs_assignTemp, classRefs_createClass, classRefs_of_class rfl]
    exact .flatMap (ihAbove (Account.Gains.allocate hscopes).scopes_ne_nil rfl)
  | classExprFree _ _ _ ihAbove =>
    refine single ?_
    rw [classRefs_createClass, classRefs_of_class rfl]
    exact .flatMap (ihAbove (Account.Gains.allocate hscopes).scopes_ne_nil rfl)
  | member => cases hcx

/-- The references in a lowered member. -/
theorem alike_member {c : String} {a₁ : Account} {t : Tree} {cs cs' : List Tree} {kind : MemberKind}
    (hless : t.Helperless) (legal : MemberKind.ofShape? t.shape = some kind)
    (expanded : Expands ⟨c, options.runtimeName, kind⟩ false a.openScope t.shape.children cs a₁)
    (below : Lowers options none a₁ cs cs' a') (held : List Nat) :
    Alike c (t.memberRefs c) (((t.withChildren cs').declaring held).asProperty kind).classRefs := by
  have owner := ownsTemps_of_ofShape? legal
  have howner : (t.withChildren cs').shape.ownsTemps = true :=
    (ownsTemps_withChildren t cs').trans owner
  have hscopes : a₁.temps.scopes ≠ [] := by
    obtain ⟨new, gains⟩ := expanded.extends.exists_gains (List.cons_ne_nil _ _)
    exact gains.scopes_ne_nil
  have hrefs : t.memberRefs c = t.shape.collect id (superRefs ⟨c, options.runtimeName, kind⟩) := by
    rw [memberRefs, memberScopes, legal]
    exact map_placed _ _ _
  rw [classRefs_asProperty ((ofShape?_declaring _ _ _).trans legal), hrefs]
  refine Alike.trans ?_ (alike_declaring c howner held)
  rw [classRefs_of_ownsTemps howner]
  refine .collect ?_ ?_
  · exact forall₂_comp .trans (expanded.forall₂' compatible_renders) (below.renders hscopes)
  · have hexpanded := expanded.alike rfl fun c hc => hless.child hc
    refine forall₂_comp ?_ hexpanded (below.alike hscopes c)
    exact fun h₁ h₂ => h₁.trans h₂

/-- **The references in lowered members are those that their uses of `super` give rise to.** -/
theorem alike_members {c : String} (h : Lowers options (some c) a ts ts' a')
    (hts : ∀ t ∈ ts, t.Helperless) :
    List.Forall₂ (fun t t' => Alike c (t.memberRefs c) t'.classRefs) ts ts' := by
  generalize hcx : some c = cx at h
  induction h with
  | nil => exact .nil
  | cons _ _ ihHead ihTail =>
    obtain ⟨hhead, htail⟩ := List.forall_mem_cons.mp hts
    have head := ihHead (List.forall_mem_singleton.mpr hhead) hcx
    exact .cons (List.forall₂_cons.mp head).1 (ihTail htail hcx)
  | walk | scope | classDecl | classExprBound | classExprFree => cases hcx
  | member legal expanded below =>
    cases hcx
    exact .cons (alike_member (List.forall_mem_singleton.mp hts) legal expanded below _) .nil

end Lowers

end Declass
