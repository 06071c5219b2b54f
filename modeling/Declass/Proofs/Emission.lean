import Declass.Proofs.ClassFree
import Declass.Proofs.Referring

/-!
# Uses of names in the order of emission

The lowering puts the members of a class into an object and the heritage behind it, so what comes
first in the text of a class comes last in the code. Everything else keeps its order. This module
lists the uses of names in a tree in the order in which they are emitted, each with the scopes
around it. Lowered code has the same list: the uses that come from the text are used in the same
order, under scopes that bind the same names, save temporaries.

Generated uses have no range and are left out.

## Main definitions

* `Use.Matches` — one use, under scopes that bind the same names
* `Tree.emissions`, `Tree.written` — the uses of names in the order of emission, and in that of the
  text
* `Tree.Corresponds` — the same uses in the same order

## Main results

* `Tree.emissions_perm`, `Tree.ClassFree.emissions_eq` — what is emitted is what is written
* `Lowers.corresponds`, `Lowers.corresponds_program` — lowering keeps the emissions
-/

namespace Declass

/-! ### Uses under like scopes -/

/-- Two scopes that bind the same names, save temporaries. -/
def AgreeOnNames (names names' : List String) : Prop :=
  ∀ c, ¬ IsTemp c → (c ∈ names' ↔ c ∈ names)

namespace AgreeOnNames

theorem refl (names : List String) : AgreeOnNames names names :=
  fun _ _ => Iff.rfl

theorem trans {names names' names'' : List String} (h₁ : AgreeOnNames names names')
    (h₂ : AgreeOnNames names' names'') : AgreeOnNames names names'' :=
  fun c hc => (h₂ c hc).trans (h₁ c hc)

end AgreeOnNames

namespace Use

/-- The same use, under scopes that bind the same names, save temporaries. -/
structure Matches (u u' : Use) : Prop where
  reference_eq : u'.reference = u.reference
  scopes : List.Forall₂ AgreeOnNames u.scopes u'.scopes

namespace Matches

variable {u u' u'' : Use}

theorem refl (u : Use) : Matches u u :=
  ⟨rfl, List.forall₂_same.mpr fun names _ => .refl names⟩

theorem trans (h₁ : Matches u u') (h₂ : Matches u' u'') : Matches u u'' :=
  ⟨h₂.reference_eq.trans h₁.reference_eq, forall₂_comp .trans h₁.scopes h₂.scopes⟩

theorem within (h : Matches u u') {names names' : List String}
    (hnames : AgreeOnNames names names') :
    Matches (u.within names) (u'.within names') :=
  ⟨h.reference_eq, List.rel_append h.scopes (.cons hnames .nil)⟩

/-- A name that is no temporary is bound by the same scopes. -/
theorem findIdx?_eq (h : Matches u u') {c : String} (hc : ¬ IsTemp c) :
    u'.scopes.findIdx? (c ∈ ·) = u.scopes.findIdx? (c ∈ ·) := by
  obtain ⟨-, hscopes⟩ := h
  generalize u.scopes = scopes at hscopes
  generalize u'.scopes = scopes' at hscopes
  induction hscopes with
  | nil => rfl
  | cons head _ ih => simp only [List.findIdx?_cons, head c hc, ih]

/-- Uses that match are bound or free alike. -/
theorem isBound_eq (h : Matches u u') (hname : ¬ IsTemp u.reference.name) :
    u'.isBound = u.isBound := by
  have hfind := h.findIdx?_eq hname
  rw [isBound, isBound, h.reference_eq, ← List.findIdx?_isSome, ← List.findIdx?_isSome, hfind]

end Matches

end Use

/-! ### Emissions -/

namespace ScopeRule

variable {α β : Type}

/-- What is found in the parts of a construct, with the scope that the construct opens around what
is found in it. -/
def collect (tree : α → Tree) (f : α → List Use) (rule : ScopeRule α) : List Use :=
  rule.parts.flatMap f ++ rule.inner.toList.flatMap fun scope =>
    (scope.parts.flatMap f).map (Use.within (scope.map tree).bound)

theorem collect_map (k : α → β) (tree : β → Tree) (f : β → List Use) (rule : ScopeRule α) :
    (rule.map k).collect tree f = rule.collect (tree ∘ k) (f ∘ k) := by
  obtain ⟨hoisted, declared, parts, inner⟩ := rule
  cases inner <;>
    simp [ScopeRule.map, collect, InnerScope.map, List.flatMap_map, Function.comp_def]

end ScopeRule

namespace Shape

variable {α : Type} {s : Shape α} {tree : α → Tree} {f g : α → List Use}

theorem collect_congr_scopeRule (h : ∀ c ∈ s.children, f c = g c) :
    s.scopeRule.collect tree f = s.scopeRule.collect tree g := by
  refine congrArg₂ (· ++ ·) (List.flatMap_congr fun c hc => h c (mem_children_of_mem_parts hc))
    (List.flatMap_congr fun scope hscope => congrArg _ (List.flatMap_congr fun c hc => h c ?_))
  exact mem_children_of_mem_inner (Option.mem_toList.mp hscope) hc

theorem collect_perm_scopeRule (h : ∀ c ∈ s.children, (f c).Perm (g c)) :
    (s.scopeRule.collect tree f).Perm (s.scopeRule.collect tree g) := by
  refine (List.Perm.flatMap_left _ fun c hc => h c (mem_children_of_mem_parts hc)).append
    (List.Perm.flatMap_left _ fun scope hscope => .map _ (.flatMap_left _ fun c hc => h c ?_))
  exact mem_children_of_mem_inner (Option.mem_toList.mp hscope) hc

end Shape

/-- Whether a use comes from the text. -/
def Use.isLocated (u : Use) : Bool :=
  u.reference.range.isSome

namespace Tree

/-- The use of a name that a tree is, if it comes from the text. -/
def ownUses {α : Type} (s : Shape α) (r : Option Range) : List Use :=
  ((s.use? r).toList.filter fun reference => reference.range.isSome).map fun reference =>
    ⟨reference, []⟩

theorem ownUses_none {α : Type} (s : Shape α) : ownUses s none = [] := by
  cases s <;> rfl

/-- The uses of names in a tree that come from the text, in the order in which the lowering emits
them: the members of a class come before its heritage. -/
def emissions : Tree → List Use :=
  para fun _ shape range => match shape.classParts? with
    | some parts => parts.members.flatMap Prod.snd ++ parts.heritage.toList.flatMap Prod.snd
    | none => ownUses shape range ++ shape.scopeRule.collect Prod.fst Prod.snd

/-- Of a class the members are emitted before the heritage. -/
theorem emissions_eq (t : Tree) :
    t.emissions = match t.shape.classParts? with
      | some parts => parts.members.flatMap emissions ++ parts.heritage.toList.flatMap emissions
      | none => ownUses t.shape t.range ++ t.shape.scopeRule.collect id emissions := by
  obtain ⟨o, s, r⟩ := t
  rw [emissions, para_node, ← emissions, Shape.classParts?_map, shape_node, range_node]
  cases s.classParts? with
  | some parts =>
    cases hheritage : parts.heritage <;> simp [ClassParts.map, hheritage, List.flatMap_map]
  | none =>
    rw [Shape.scopeRule_map, ScopeRule.collect_map, ownUses, ownUses, Shape.use?_map]
    rfl

variable {t t' t'' : Tree}

theorem emissions_of_class {parts : ClassParts Tree} (h : t.shape.classParts? = some parts) :
    t.emissions =
      parts.members.flatMap emissions ++ parts.heritage.toList.flatMap emissions := by
  rw [emissions_eq, h]

theorem emissions_of_plain (h : t.shape.isClass = false) :
    t.emissions = ownUses t.shape t.range ++ t.shape.scopeRule.collect id emissions := by
  rw [emissions_eq, Shape.classParts?_eq_none h]

theorem emissions_of_isGlue (h : t.shape.isGlue = true) :
    t.emissions = t.shape.children.flatMap emissions := by
  obtain ⟨hrule, huse⟩ := Shape.scopeRule_of_isGlue h
  rw [emissions_of_plain (Shape.isClass_of_isGlue h), ownUses, huse, hrule]
  simp [ScopeRule.collect]

/-- Generated code without parts from the text emits nothing. -/
theorem emissions_eq_nil (h : t.Everywhere fun u => u.range = none) : t.emissions = [] := by
  induction h with
  | @node o s r root below ih =>
    obtain rfl : r = none := root
    cases hparts : s.classParts? with
    | some parts =>
      have hchildren := (Shape.sublist_children_of_classParts? hparts).subset
      rw [emissions_of_class (t := .node o s none) hparts, List.append_eq_nil_iff,
        List.flatMap_eq_nil_iff, List.flatMap_eq_nil_iff]
      exact ⟨fun m hm => ih m (hchildren (List.mem_append_right _ hm)),
        fun c hc => ih c (hchildren (List.mem_append_left _ hc))⟩
    | none =>
      rw [emissions_eq, shape_node, hparts, range_node, ownUses_none, List.nil_append,
        ScopeRule.collect, List.append_eq_nil_iff, List.flatMap_eq_nil_iff]
      refine ⟨fun c hc => ih c (Shape.mem_children_of_mem_parts hc), ?_⟩
      rw [List.flatMap_eq_nil_iff]
      intro scope hscope
      rw [List.map_eq_nil_iff, List.flatMap_eq_nil_iff]
      exact fun c hc => ih c (Shape.mem_children_of_mem_inner (Option.mem_toList.mp hscope) hc)

theorem emissions_gen_of_isLeaf {s : Shape Tree} (h : s.isLeaf = true) :
    (gen s).emissions = [] := by
  refine emissions_eq_nil (.node rfl ?_)
  simp [Shape.children_eq_nil_of_isLeaf h]

theorem additive_emissions {names : String → Prop} : Additive names emissions where
  glue _ := emissions_of_isGlue
  ident _ _ := emissions_gen_of_isLeaf rfl
  this := emissions_gen_of_isLeaf rfl
  literal _ := emissions_gen_of_isLeaf rfl

/-! ### The order of the text -/

/-- The uses of names in a tree that come from the text, in the order of the text. -/
def written (t : Tree) : List Use :=
  t.uses.filter Use.isLocated

theorem written_eq (t : Tree) :
    t.written = ownUses t.shape t.range ++ t.shape.scopeRule.collect id written := by
  obtain ⟨o, s, r⟩ := t
  have hflatMap (ts : List Tree) : (ts.flatMap uses).filter Use.isLocated = ts.flatMap written :=
    List.filter_flatMap
  have hwithin (names : List String) (us : List Use) :
      (us.map (Use.within names)).filter Use.isLocated =
        (us.filter Use.isLocated).map (Use.within names) :=
    List.filter_map
  rw [written, uses_node, List.filter_append, List.filter_append, hflatMap, shape_node, range_node,
    ownUses, List.filter_map]
  refine congrArg₂ _ rfl (congrArg₂ _ rfl ?_)
  cases s.scopeRule.inner with
  | none => rfl
  | some scope => simp [hwithin, hflatMap, InnerScope.map_id]

theorem written_of_class {parts : ClassParts Tree} (h : t.shape.classParts? = some parts) :
    t.written = parts.heritage.toList.flatMap written ++ parts.members.flatMap written := by
  rw [written_eq, ← List.flatMap_append]
  generalize t.shape = s at h
  cases s <;> cases h <;> simp [ownUses, Shape.use?, ScopeRule.collect, Shape.scopeRule]

/-- The same uses are emitted that are written. -/
theorem emissions_perm (t : Tree) : t.emissions.Perm t.written := by
  induction t with
  | node o s r ih =>
    cases hparts : s.classParts? with
    | some parts =>
      have hchildren := (Shape.sublist_children_of_classParts? hparts).subset
      rw [emissions_of_class (t := .node o s r) hparts, written_of_class (t := .node o s r) hparts]
      refine List.perm_append_comm.trans (.append ?_ ?_)
      · exact .flatMap_left _ fun c hc => ih c (hchildren (List.mem_append_left _ hc))
      · exact .flatMap_left _ fun m hm => ih m (hchildren (List.mem_append_right _ hm))
    | none =>
      rw [emissions_eq, written_eq, shape_node, hparts]
      exact (Shape.collect_perm_scopeRule ih).append_left _

/-- Code without classes is emitted as it is written. -/
theorem ClassFree.emissions_eq (h : t.ClassFree) : t.emissions = t.written := by
  induction h with
  | @node o s r plain _ ih =>
    rw [emissions_of_plain plain, written_eq, shape_node, Shape.collect_congr_scopeRule ih]

/-! ### Corresponding trees -/

/-- Two trees emit the same uses, in the same order and under like scopes. -/
def Corresponds (t t' : Tree) : Prop :=
  List.Forall₂ Use.Matches t.emissions t'.emissions

namespace Corresponds

theorem refl (t : Tree) : Corresponds t t :=
  List.forall₂_same.mpr fun u _ => .refl u

theorem of_eq (h : t'.emissions = t.emissions) : Corresponds t t' := by
  rw [Corresponds, h]
  exact refl t

theorem trans (h₁ : Corresponds t t') (h₂ : Corresponds t' t'') : Corresponds t t'' :=
  forall₂_comp .trans h₁ h₂

theorem flatMap {ts ts' : List Tree} (h : List.Forall₂ Corresponds ts ts') :
    List.Forall₂ Use.Matches (ts.flatMap emissions) (ts'.flatMap emissions) :=
  List.rel_flatMap h fun _ _ => id

/-- **Constructs correspond if their children do.** -/
theorem withChildren {cs : List Tree} (plain : t.shape.isClass = false)
    (renders : List.Forall₂ (Renders fun _ => True) t.shape.children cs)
    (h : List.Forall₂ Corresponds t.shape.children cs) : Corresponds t (t.withChildren cs) := by
  obtain ⟨z, hfst, hsnd, hz⟩ := Shape.exists_pairs_of_forall₂ (forall₂_and renders h)
  have hpairs {ps : List (Tree × Tree)} (hps : ∀ p ∈ ps, p ∈ z.children) :
      List.Forall₂ Use.Matches (ps.flatMap (emissions ∘ Prod.fst))
        (ps.flatMap (emissions ∘ Prod.snd)) :=
    List.rel_flatMap (R := fun p q => Corresponds p.1 q.2)
      (List.forall₂_same.mpr fun p hp => (hz p (hps p hp)).2) fun _ _ => id
  have plain' : (t.withChildren cs).shape.isClass = false := by
    rwa [Tree.withChildren, shape_node, Shape.isClass_refill]
  rw [Corresponds, emissions_of_plain plain, emissions_of_plain plain',
    Tree.withChildren, shape_node,
    range_node, hsnd, hfst, ownUses, ownUses, Shape.use?_map, Shape.use?_map, Shape.scopeRule_map,
    Shape.scopeRule_map, ScopeRule.collect_map, ScopeRule.collect_map]
  refine List.rel_append (List.forall₂_same.mpr fun u _ => .refl u) (List.rel_append ?_ ?_)
  · exact hpairs fun p hp => Shape.mem_children_of_mem_parts hp
  · cases hscope : z.scopeRule.inner with
    | none => exact .nil
    | some scope =>
      simp only [Option.toList_some, List.flatMap_singleton]
      refine List.rel_map (fun u u' hu => hu.within fun c hc => ?_)
        (hpairs fun p hp => Shape.mem_children_of_mem_inner hscope hp)
      exact InnerScope.mem_bound_of_renders
        (Tree.Renders.inside (fun p hp => (hz p hp).1) hscope) rfl hc

/-- Classes with the same members correspond if their heritage does. -/
theorem ofClass {parts parts' : ClassParts Tree} (ht : t.shape.classParts? = some parts)
    (ht' : t'.shape.classParts? = some parts') (members : parts'.members = parts.members)
    (heritage : List.Forall₂ Corresponds parts.heritage.toList parts'.heritage.toList) :
    Corresponds t t' := by
  rw [Corresponds, emissions_of_class ht, emissions_of_class ht', members]
  exact List.rel_append (List.forall₂_same.mpr fun u _ => .refl u) (flatMap heritage)

/-- The expansion of `super` keeps the uses and what they refer to. -/
theorem compatible : Expands.Compatible (fun _ => True)
    fun t t' => Renders (fun _ => True) t t' ∧ Corresponds t t' where
  refl t := ⟨.refl _ t, .refl t⟩
  walk t cs plain h :=
    have renders := h.imp fun _ _ hc => hc.1
    ⟨.withChildren renders, .withChildren plain renders (h.imp fun _ _ hc => hc.2)⟩
  classDecl o name h h' ms r heritage :=
    ⟨compatible_renders.classDecl o name h h' ms r (heritage.imp fun _ _ hc => hc.1),
      .ofClass rfl rfl rfl (heritage.imp fun _ _ hc => hc.2)⟩
  classExpr o name h h' ms r heritage :=
    ⟨compatible_renders.classExpr o name h h' ms r (heritage.imp fun _ _ hc => hc.1),
      .ofClass rfl rfl rfl (heritage.imp fun _ _ hc => hc.2)⟩
  use {t t' use operands} role h emits := by
    refine ⟨compatible_renders.use role (h.imp fun _ _ hc => hc.1) emits, ?_⟩
    rw [Corresponds, emits.eq_flatMap additive_emissions,
      flatMap_operands (fun _ => emissions_of_isGlue) role]
    exact flatMap (h.imp fun _ _ hc => hc.2)

end Corresponds

/-! ### Temporaries and classes -/

theorem everywhere_declareTemps (temps : List Nat) :
    (declareTemps temps).Everywhere fun u => u.range = none := by
  simp [declareTemps, gen, everywhere_node, Shape.children]

theorem everywhere_defaultConstructor (hasBase : Bool) :
    (defaultConstructor hasBase).Everywhere fun u => u.range = none := by
  cases hasBase <;> simp [defaultConstructor, gen, ident, everywhere_node, Shape.children]

theorem emissions_prepend (temps : List Nat) (body : Tree) :
    (prepend (declareTemps temps) body).emissions = body.emissions := by
  have hdeclaration := emissions_eq_nil (everywhere_declareTemps temps)
  have hstatements : body.statements.flatMap emissions = body.emissions := by
    rw [statements]
    split
    case h_1 hblock =>
      rw [emissions_of_plain (t := body) (by rw [hblock]; rfl), hblock]
      simp [ownUses, Shape.use?, ScopeRule.collect, Shape.scopeRule, Shape.children]
    case h_2 =>
      rw [List.flatMap_singleton, emissions_of_plain rfl]
      simp [ownUses, Shape.use?, ScopeRule.collect, Shape.scopeRule, Shape.children]
  rw [prepend, emissions_of_plain rfl]
  simp [ownUses, Shape.use?, ScopeRule.collect, Shape.scopeRule, Shape.children, hdeclaration,
    hstatements]

/-- Declaring temporaries does not touch the uses around. -/
theorem Corresponds.declaring (owner : t.shape.ownsTemps = true) (temps : List Nat) :
    Corresponds t (t.declaring temps) := by
  have howner := (ownsTemps_declaring t temps).trans owner
  have huse (s : Shape Tree) (r : Option Range) (hs : s.ownsTemps = true) : ownUses s r = [] := by
    cases s <;> first | rfl | cases hs
  rw [Corresponds, emissions_of_plain (isClass_of_ownsTemps owner), huse _ _ owner,
    emissions_of_plain (isClass_of_ownsTemps howner), huse _ _ howner, Tree.declaring]
  split
  case isTrue => exact List.forall₂_same.mpr fun u _ => .refl u
  case isFalse =>
    rw [shape_node]
    have ofFunction (hfunction : t.shape.isFunctionLike = true) :
        List.Forall₂ Use.Matches (t.shape.scopeRule.collect id emissions)
          ((t.shape.mapBody (prepend (declareTemps temps))).scopeRule.collect id emissions) := by
      obtain ⟨hoisted, names, words, parts, body, hrule⟩ :=
        Shape.scopeRule_of_isFunctionLike hfunction
      have hrule₀ := t.shape.mapBody_id ▸ hrule id
      simp only [ScopeRule.collect, hrule, hrule₀, Option.toList_some, List.flatMap_singleton]
      refine List.rel_append .nil ?_
      rw [List.flatMap_append, List.flatMap_append, List.flatMap_singleton, List.flatMap_singleton,
        emissions_prepend]
      refine List.rel_map (R := Use.Matches) (fun u u' hu => hu.within fun c hc => ?_)
        (List.forall₂_same.mpr fun u _ => .refl u)
      rw [InnerScope.map_id, InnerScope.map_id]
      exact InnerScope.mem_bound_prepend hc _ _ _ _ _ _
    cases hs : t.shape with
    | program statements =>
      have hdeclaration := emissions_eq_nil (everywhere_declareTemps temps)
      simp only [Shape.declaring, ScopeRule.collect, Shape.scopeRule, Shape.children,
        List.flatMap_cons, hdeclaration, List.nil_append]
      exact List.forall₂_same.mpr fun u _ => .refl u
    | functionDecl | functionExpr | arrow | method | getter | setter =>
      rw [hs] at ofFunction
      exact ofFunction rfl
    | _ => rw [hs] at owner; cases owner

/-- A member emits the same as a property. -/
theorem emissions_asProperty {kind : MemberKind} (h : MemberKind.ofShape? t.shape = some kind) :
    (t.asProperty kind).emissions = t.emissions := by
  rw [asProperty]
  split
  case isFalse => rfl
  case isTrue hkind =>
    obtain ⟨o, s, r⟩ := t
    obtain ⟨name, parameters, body, rfl : s = _⟩ := isConstructor_of_ofShape? (hkind ▸ h)
    have hfunction : (Tree.node none (.functionExpr none parameters body) r).emissions =
        (Tree.node o (.method name parameters body) r).emissions := by
      rw [emissions_of_plain rfl, emissions_of_plain rfl]
      rfl
    rw [constructorProperty, shape_node, emissions_of_plain rfl]
    simp [ownUses, Shape.use?, ScopeRule.collect, Shape.scopeRule, Shape.children, hfunction]

theorem emissions_createClass (options : Options) (properties : List Tree) (hasConstructor : Bool)
    (base : Option Tree) (r : Option Range) :
    (createClass options properties hasConstructor base r).emissions =
      properties.flatMap emissions ++ base.toList.flatMap emissions := by
  have hliteral (value : Literal) : (gen (.literal value)).emissions = [] :=
    emissions_gen_of_isLeaf rfl
  have hcallee : (helper options.runtimeName .createClass).emissions = [] :=
    emissions_eq_nil (by simp [helper, ident, gen, everywhere_node, Shape.children])
  have hobject : (gen (.object properties)).emissions = properties.flatMap emissions := by
    rw [gen, emissions_of_plain rfl]
    simp [ownUses, Shape.use?, ScopeRule.collect, Shape.scopeRule, Shape.children]
  rw [createClass, emissions_of_isGlue rfl]
  cases base <;> simp [Shape.children, hcallee, hobject, hliteral, boolean]

theorem emissions_declareClass (options : Options) (name call : Tree) (r : Option Range) :
    (declareClass options name call r).emissions = call.emissions := by
  have hdeclarator :
      (Tree.node none (.declarator name (some call)) r).emissions = call.emissions := by
    rw [emissions_of_plain rfl]
    simp [ownUses, Shape.use?, ScopeRule.collect, Shape.scopeRule]
  rw [declareClass, emissions_of_plain rfl]
  simp [ownUses, Shape.use?, ScopeRule.collect, Shape.scopeRule, Shape.children, hdeclarator]

theorem emissions_assignTemp (number : Nat) (value : Tree) (r : Option Range) :
    (Tree.node none (.paren (.assign (.temp number) value)) r).emissions = value.emissions := by
  have htemp : (temp number).emissions = [] := emissions_gen_of_isLeaf rfl
  have hassign : (assign (temp number) value).emissions = value.emissions := by
    rw [assign, gen, emissions_of_isGlue rfl]
    simp [Shape.children, htemp]
  rw [emissions_of_isGlue rfl]
  simp [Shape.children, hassign]

/-- A default constructor emits nothing. -/
theorem emissions_withConstructor (members : List Tree) (hasBase : Bool) :
    (withConstructor members hasBase).flatMap emissions = members.flatMap emissions := by
  have hconstructor := emissions_eq_nil (everywhere_defaultConstructor hasBase)
  rw [withConstructor]
  split
  · rfl
  · rw [List.flatMap_append, List.flatMap_singleton, hconstructor, List.append_nil]

/-- A class corresponds to the call that makes it, as soon as its parts do. -/
theorem Corresponds.createClass {options : Options} {parts : ClassParts Tree}
    (ht : t.shape.classParts? = some parts) {base : Option Tree} {properties : List Tree}
    (above : List.Forall₂ Corresponds parts.heritage.toList base.toList)
    (below : List.Forall₂ Corresponds (withConstructor parts.members base.isSome) properties)
    (hasConstructor : Bool) (r : Option Range) :
    Corresponds t (createClass options properties hasConstructor base r) := by
  have hmembers := flatMap below
  rw [emissions_withConstructor] at hmembers
  rw [Corresponds, emissions_of_class ht, emissions_createClass]
  exact List.rel_append hmembers (flatMap above)

end Tree

/-! ### Lowering -/

namespace Lowers

open Declass.Tree

variable {options : Options} {c : Option String} {a a' : Account} {ts ts' : List Tree}

/-- **Lowering keeps the uses of the text, their order of emission and what they refer to.** -/
theorem corresponds (h : Lowers options c a ts ts' a') (hscopes : a.temps.scopes ≠ []) :
    List.Forall₂ Corresponds ts ts' := by
  have single {t t' : Tree} (h : Corresponds t t') : List.Forall₂ Corresponds [t] [t'] :=
    .cons h .nil
  induction h with
  | nil => exact .nil
  | cons head _ ihHead ihTail =>
    exact .cons (List.forall₂_cons.mp (ihHead hscopes)).1 (ihTail (head.scopes_ne_nil hscopes))
  | walk plain _ below ih =>
    exact single (.withChildren plain (below.renders hscopes) (ih hscopes))
  | @scope b _ t cs owner below ih =>
    have hopen : b.openScope.temps.scopes ≠ [] := List.cons_ne_nil _ _
    have hwalked : Corresponds t (t.withChildren cs) :=
      .withChildren (isClass_of_ownsTemps owner) (below.renders hopen) (ih hopen)
    exact single (hwalked.trans (.declaring ((ownsTemps_withChildren t cs).trans owner) _))
  | classDecl _ above _ ihAbove ihBelow =>
    refine single (.trans ?_ (.of_eq (emissions_declareClass _ _ _ _)))
    exact .createClass rfl (ihAbove hscopes) (ihBelow (above.scopes_ne_nil hscopes)) _ _
  | classExprBound above _ _ ihAbove ihBelow =>
    have hallocated := (Account.Gains.allocate hscopes).scopes_ne_nil
    refine single (.trans ?_ (.of_eq (emissions_assignTemp _ _ _)))
    exact .createClass rfl (ihAbove hallocated) (ihBelow (above.scopes_ne_nil hallocated)) _ _
  | classExprFree above _ _ ihAbove ihBelow =>
    have hallocated := (Account.Gains.allocate hscopes).scopes_ne_nil
    exact single
      (.createClass rfl (ihAbove hallocated) (ihBelow (above.scopes_ne_nil hallocated)) _ _)
  | @member _ b a₁ _ t cs cs' kind legal expanded below ih =>
    have owner := ownsTemps_of_ofShape? legal
    have howner := (ownsTemps_withChildren t cs').trans owner
    have hscopes₁ : a₁.temps.scopes ≠ [] := by
      obtain ⟨new, gains⟩ := expanded.extends.exists_gains (List.cons_ne_nil _ _)
      exact gains.scopes_ne_nil
    have hexpanded := expanded.forall₂' Corresponds.compatible
    have hwalked : Corresponds t (t.withChildren cs') := by
      refine .withChildren (isClass_of_ownsTemps owner) ?_ ?_
      · exact forall₂_comp .trans (hexpanded.imp fun _ _ hc => hc.1) (below.renders hscopes₁)
      · exact forall₂_comp .trans (hexpanded.imp fun _ _ hc => hc.2) (ih hscopes₁)
    refine single ((hwalked.trans (.declaring howner _)).trans (.of_eq (emissions_asProperty ?_)))
    exact (ofShape?_declaring _ _ _).trans legal

/-- **A lowered program emits its uses in the same order.** -/
theorem corresponds_program {t t' : Tree} (owner : t.shape.ownsTemps = true)
    (h : Lowers options none a [t] [t'] a') : Corresponds t t' := by
  cases h with
  | walk _ shared _ =>
    rw [owner] at shared
    cases shared
  | @scope _ _ _ cs _ below =>
    have hopen : a.openScope.temps.scopes ≠ [] := List.cons_ne_nil _ _
    have hwalked : Corresponds t (t.withChildren cs) :=
      .withChildren (isClass_of_ownsTemps owner) (below.renders hopen) (below.corresponds hopen)
    exact hwalked.trans (.declaring ((ownsTemps_withChildren t cs).trans owner) _)
  | classDecl | classExprBound | classExprFree => cases owner

end Lowers

end Declass
