import Declass.Proofs.Referring

/-!
# Classes that are captured

A declared class is referred to by its name in its lowered members. If a scope in a member binds the
name as well, the reference is captured: it is to something else than the class. This module shows
which classes this happens to. They are those with a use of `super` under a scope that binds their
name, be it by a parameter, a variable, the name of a function or of a caught value; a default
constructor has the parameter `args`.

## Main definitions

* `Tree.captured` — the classes of a lowered program that a reference from a member misses
* `Tree.shadowed` — the classes of a program whose name is hidden from a use of `super`
* `Tree.classNames` — the names of the declared classes

## Main results

* `Lowers.captured_eq`, `lowerProgram_captured` — the captured classes are the shadowed ones
-/

namespace Declass

open Edit Lowering

namespace Tree

/-! ### Captured classes -/

/-- The call makes a class. -/
def creates (t : Tree) : Prop :=
  t.shape.helper? = some Helper.createClass.name

instance (t : Tree) : Decidable t.creates :=
  inferInstanceAs (Decidable (_ = _))

/-- The object of members that a call that makes a class is given. -/
def classBody? (t : Tree) : Option Tree :=
  if t.creates then t.shape.children[1]? else none

theorem creates_of_classBody? {t body : Tree} (h : t.classBody? = some body) : t.creates := by
  by_contra hcreates
  rw [classBody?, if_neg hcreates] at h
  cases h

/-- The name of a class, unless `p` holds of it. -/
def nameUnless (name : Tree) (p : String → Prop) [DecidablePred p] : List String :=
  name.name?.toList.filter fun c => ¬ p c

theorem nameUnless_congr {name : Tree} {p q : String → Prop} [DecidablePred p] [DecidablePred q]
    (h : ∀ c, name.name? = some c → (p c ↔ q c)) : nameUnless name p = nameUnless name q := by
  refine List.filter_congr fun c hc => ?_
  rw [decide_eq_decide, h c (Option.mem_toList.mp hc)]

/-- The name of a variable that holds a class, if a reference from a member of the class is not to
that variable. -/
def ownCaptured : Shape Tree → List String
  | .declarator name (some value) =>
    nameUnless name fun c => ∀ body ∈ value.classBody?, ∀ use ∈ body.classRefs, use.RefersTo c
  | _ => []

/-- The names of the lowered classes that a reference from a member misses. -/
def captured : Tree → List String :=
  para fun _ shape _ => ownCaptured (shape.map Prod.fst) ++ shape.children.flatMap Prod.snd

theorem captured_eq (t : Tree) :
    t.captured = ownCaptured t.shape ++ t.shape.children.flatMap captured := by
  obtain ⟨o, s, r⟩ := t
  have hself : (s.map fun c => (c, captured c)).map Prod.fst = s := by
    rw [Shape.map_map]
    exact Shape.map_id s
  rw [captured, para_node, ← captured, hself, Shape.children_map, List.flatMap_map]
  rfl

theorem permeable_captured : Permeable captured where
  through t h := by
    have hown : ownCaptured t.shape = [] := by
      generalize t.shape = s at h
      cases s with
      | declarator name value => cases value <;> first | rfl | cases h
      | _ => rfl
    rw [captured_eq, hown, List.nil_append]
  leaf s h := by
    have hown : ownCaptured s = [] := by
      cases s <;> first | rfl | cases h
    rw [captured_eq, gen, shape_node, hown, Shape.children_eq_nil_of_isLeaf h]
    rfl
  assign number value := by
    have htemp : (temp number).captured = [] := captured_eq _
    rw [Tree.assign, captured_eq, gen, shape_node]
    simp [ownCaptured, Shape.children, htemp]

theorem captured_of_name? {t : Tree} {name : String} (h : t.name? = some name) :
    t.captured = [] := by
  rw [captured_eq]
  rw [name?] at h
  generalize t.shape = s at h
  cases s <;> first | rfl | cases h

theorem classRefs_object (properties : List Tree) :
    (gen (.object properties)).classRefs = properties.flatMap classRefs := by
  rw [gen, classRefs_of_plain rfl rfl]
  simp [Shape.collect, Shape.scopeRule, Shape.children, ScopeRule.binders]

theorem captured_declareClass (options : Options) {name : Tree} {c : String}
    (named : name.name? = some c) (properties : List Tree) (hasConstructor : Bool)
    (base : Option Tree) (r : Option Range) :
    (declareClass options name (createClass options properties hasConstructor base r) r).captured =
      nameUnless name (fun c => ∀ use ∈ properties.flatMap classRefs, use.RefersTo c) ++
        (properties.flatMap captured ++ base.toList.flatMap captured) := by
  have hbody : (createClass options properties hasConstructor base r).classBody? =
      some (gen (.object properties)) := rfl
  have hown : ownCaptured (.declarator name (some
      (createClass options properties hasConstructor base r))) =
      nameUnless name fun c => ∀ use ∈ properties.flatMap classRefs, use.RefersTo c :=
    nameUnless_congr fun c _ => by simp [hbody, classRefs_object]
  have hdeclarator : (Tree.node none (.declarator name (some
      (createClass options properties hasConstructor base r))) r).captured =
      nameUnless name (fun c => ∀ use ∈ properties.flatMap classRefs, use.RefersTo c) ++
        (properties.flatMap captured ++ base.toList.flatMap captured) := by
    rw [captured_eq, shape_node, hown]
    simp [Shape.children, captured_of_name? named, permeable_captured.createClass]
  rw [declareClass, permeable_captured.node rfl]
  simpa [Shape.children] using hdeclarator

/-! ### Shadowed classes -/

/-- The name of a class with the given members, if it is hidden from a use of `super` in one of
them. -/
def ownShadowed (name : Tree) (members : List Tree) (hasBase : Bool) : List String :=
  nameUnless name fun c =>
    ∀ m ∈ withConstructor members hasBase, ∀ chain ∈ m.memberScopes, ∀ names ∈ chain, c ∉ names

/-- The names of the declared classes that are hidden from a use of `super` in one of their members,
in the order in which the parts of classes are emitted. -/
def shadowed : Tree → List String :=
  gather (fun _ _ => []) fun parts =>
    parts.name.toList.flatMap (fun name =>
      ownShadowed name.1 (parts.members.map Prod.fst) parts.heritage.isSome) ++
      (parts.members.flatMap Prod.snd ++ parts.heritage.toList.flatMap Prod.snd)

/-- The names of the declared classes. -/
def classNames : Tree → List String :=
  gather (fun _ _ => []) fun parts =>
    parts.name.toList.flatMap (fun name => name.1.name?.toList) ++
      (parts.members.flatMap Prod.snd ++ parts.heritage.toList.flatMap Prod.snd)

section Equations

variable {t : Tree} (o : Option NodeId) (heritage : Option Tree) (members : List Tree)
  (r : Option Range)

theorem shadowed_of_not_isClass (h : t.shape.isClass = false) :
    t.shadowed = t.shape.children.flatMap shadowed := by
  rw [shadowed, gather_of_not_isClass h, List.nil_append]

theorem shadowed_classDecl (name : Tree) :
    shadowed (.node o (.classDecl name heritage members) r) =
      ownShadowed name members heritage.isSome ++
        (members.flatMap shadowed ++ heritage.toList.flatMap shadowed) := by
  rw [shadowed, gather_node]
  cases heritage <;> simp [Shape.classParts?, ClassParts.map, List.flatMap_map, Function.comp_def]

theorem shadowed_classExpr (name : Option Tree) :
    shadowed (.node o (.classExpr name heritage members) r) =
      members.flatMap shadowed ++ heritage.toList.flatMap shadowed := by
  rw [shadowed, gather_node]
  cases heritage <;> simp [Shape.classParts?, ClassParts.map, List.flatMap_map]

theorem shadowed_withConstructor (hasBase : Bool) :
    (withConstructor members hasBase).flatMap shadowed = members.flatMap shadowed :=
  flatMap_withConstructor (fun _ => rfl) members hasBase

theorem classNames_of_not_isClass (h : t.shape.isClass = false) :
    t.classNames = t.shape.children.flatMap classNames := by
  rw [classNames, gather_of_not_isClass h, List.nil_append]

theorem classNames_classDecl (name : Tree) :
    classNames (.node o (.classDecl name heritage members) r) =
      name.name?.toList ++ (members.flatMap classNames ++ heritage.toList.flatMap classNames) := by
  rw [classNames, gather_node]
  cases heritage <;> simp [Shape.classParts?, ClassParts.map, List.flatMap_map]

theorem classNames_classExpr (name : Option Tree) :
    classNames (.node o (.classExpr name heritage members) r) =
      members.flatMap classNames ++ heritage.toList.flatMap classNames := by
  rw [classNames, gather_node]
  cases heritage <;> simp [Shape.classParts?, ClassParts.map, List.flatMap_map]

theorem classNames_withConstructor (hasBase : Bool) :
    (withConstructor members hasBase).flatMap classNames = members.flatMap classNames :=
  flatMap_withConstructor (fun _ => rfl) members hasBase

end Equations

end Tree

theorem Expands.shadowed_eq {site : Site} {nested : Bool} {a a' : Account} {ts ts' : List Tree}
    (h : Expands site nested a ts ts' a') :
    ts'.flatMap Tree.shadowed = ts.flatMap Tree.shadowed := by
  refine flatMap_eq_of_forall₂ (h.gather_eq (fun _ _ _ => rfl) (fun _ => rfl) (fun _ _ _ => rfl) ?_)
  intro name h h' ms hh
  cases h <;> cases h' <;> simp_all

theorem Expands.classNames_eq {site : Site} {nested : Bool} {a a' : Account} {ts ts' : List Tree}
    (h : Expands site nested a ts ts' a') :
    ts'.flatMap Tree.classNames = ts.flatMap Tree.classNames := by
  refine flatMap_eq_of_forall₂ (h.gather_eq (fun _ _ _ => rfl) (fun _ => rfl) (fun _ _ _ => rfl) ?_)
  intro name h h' ms hh
  cases h <;> cases h' <;> simp_all

/-! ### Code that is not lowered yet -/

namespace Tree

/-- What is asked of code before classes are lowered: no variable holds a class that has been made,
and the members of classes call no helpers. -/
structure Raw (t : Tree) : Prop where
  value : ∀ name value, t.shape = .declarator name (some value) → ¬ value.creates
  members : ∀ parts, t.shape.classParts? = some parts → ∀ m ∈ parts.members, m.Helperless

/-- What an expansion may do to code that is not lowered yet. -/
structure Unmade (t t' : Tree) : Prop where
  creates : t'.creates → t.creates
  everywhere : t.Everywhere Raw → t'.Everywhere Raw

variable {t t' : Tree}

theorem raw_of_plain (plain : t.shape.isClass = false)
    (hvalue : ∀ name value, t.shape ≠ .declarator name (some value)) : t.Raw where
  value name value hs := absurd hs (hvalue name value)
  members parts hparts := by
    rw [Shape.classParts?_eq_none plain] at hparts
    cases hparts

theorem Helperless.everywhere_raw (h : t.Helperless) : t.Everywhere Raw := by
  induction h with
  | @node o s r root below ih =>
    refine .node ⟨fun name value hs hcreates => ?_, fun parts hparts m hm => below m ?_⟩ ih
    · obtain rfl : s = _ := hs
      have hnone : value.shape.helper? = none :=
        (below value (by simp [Shape.children])).root
      rw [Tree.creates, hnone] at hcreates
      cases hcreates
    · cases s with
      | classDecl | classExpr =>
        cases hparts
        simp [Shape.children, hm]
      | _ => cases hparts

namespace Unmade

theorem refl (t : Tree) : Unmade t t :=
  ⟨id, id⟩

theorem forall_mem {ts ts' : List Tree} (h : List.Forall₂ Unmade ts ts')
    (hts : ∀ t ∈ ts, t.Everywhere Raw) : ∀ t' ∈ ts', t'.Everywhere Raw :=
  forall_mem_of_forall₂ h (fun _ _ => everywhere) hts

theorem withChildren {cs : List Tree} (plain : t.shape.isClass = false)
    (stands : List.Forall₂ Stands t.shape.children cs)
    (h : List.Forall₂ Unmade t.shape.children cs) : Unmade t (t.withChildren cs) where
  creates hcreates := (Stands.helper?_eq stands).symm.trans hcreates
  everywhere ht := by
    have hchildren : (t.shape.refill cs).children = cs := Shape.children_refill h.length_eq.symm
    refine .node ⟨fun name value hs => ?_, fun parts hparts => ?_⟩ ?_
    · obtain ⟨z, hfst, hsnd, hz⟩ := Shape.exists_pairs_of_forall₂ h
      rw [shape_node, hsnd] at hs
      cases z with
      | declarator p q =>
        obtain ⟨q, rfl, rfl⟩ : ∃ q', q = some q' ∧ q'.2 = value := by
          cases q <;> simp_all [Shape.map]
        have hvalue := ht.root.value p.1 q.1 hfst
        exact fun hcreates => hvalue ((hz q (by simp [Shape.children])).creates hcreates)
      | _ => cases hs
    · rw [shape_node, Shape.classParts?_eq_none] at hparts
      · cases hparts
      · rwa [Shape.isClass_refill]
    · rw [hchildren]
      exact forall_mem h fun c hc => ht.child hc

/-- A class with another heritage. -/
theorem ofClass {o : Option NodeId} {s s' : Shape Tree} {r : Option Range} (hs : s'.isClass = true)
    (hmembers : s'.classParts?.map ClassParts.members = s.classParts?.map ClassParts.members)
    (h : List.Forall₂ Unmade s.children s'.children) : Unmade (.node o s r) (.node o s' r) where
  creates hcreates := by
    have hhelper : s'.helper? = none := by cases s' <;> first | rfl | cases hs
    rw [Tree.creates, shape_node, hhelper] at hcreates
    cases hcreates
  everywhere ht := by
    refine .node ⟨fun name value hshape => ?_, fun parts hparts m hm => ?_⟩
      (forall_mem h fun c hc => ht.child hc)
    · rw [show s' = _ from hshape] at hs
      cases hs
    · rw [shape_node] at hparts
      rw [hparts, Option.map_some, eq_comm, Option.map_eq_some_iff] at hmembers
      obtain ⟨parts', hparts', hmembers⟩ := hmembers
      exact ht.root.members parts' hparts' m (hmembers ▸ hm)

/-- A use of `super` that becomes other code. -/
theorem ofUse {names : String → Prop} {use : SuperUse Tree} {operands : List Tree}
    (role : t.superRole = .use use) (h : List.Forall₂ Unmade use.operands operands)
    (emits : Emits names operands t') (hcreates : t'.creates → t.creates) : Unmade t t' where
  creates := hcreates
  everywhere ht := by
    have glue (u : Tree) (hu : u.shape.isGlue = true) : u.Raw := by
      refine raw_of_plain (Shape.isClass_of_isGlue hu) fun name value hs => ?_
      rw [hs] at hu
      cases hu
    have leaf (u : Tree) (hu : u.shape.isLeaf = true) : u.Raw := by
      refine raw_of_plain (Shape.isClass_of_isLeaf hu) fun name value hs => ?_
      rw [hs] at hu
      cases hu
    exact emits.everywhere glue leaf (forall_mem h fun c hc => ht.operand role hc)

end Unmade

end Tree

theorem Site.not_creates_helperCall {site : Site} {helper : Helper}
    (hhelper : helper.name ≠ Helper.createClass.name) (arguments : List Tree)
    (range : Option Range) : ¬ (site.helperCall helper arguments range).creates :=
  fun hcreates => hhelper (Option.some.inj hcreates)

theorem Site.Direct.not_creates {site : Site} {range : Option Range} {use : SuperUse Tree}
    {operands : List Tree} {t : Tree} (code : site.Direct range use operands t) : ¬ t.creates := by
  cases code with
  | compound =>
    rw [Site.compound]
    split
    · exact fun hcreates => (by cases hcreates)
    · exact not_creates_helperCall (by decide) _ _
  | _ => exact not_creates_helperCall (by decide) _ _

open Declass.Tree in
/-- **Expanding `super` makes no classes.** -/
theorem Expands.unmade {site : Site} {nested : Bool} {a a' : Account} {ts ts' : List Tree}
    (h : Expands site nested a ts ts' a') : List.Forall₂ Unmade ts ts' := by
  have single {t t' : Tree} (h : Unmade t t') : List.Forall₂ Unmade [t] [t'] := .cons h .nil
  induction h with
  | nil => exact .nil
  | cons _ _ ihHead ihTail => exact .cons (List.forall₂_cons.mp ihHead).1 ihTail
  | walk role below ih | enter role below ih =>
    exact single (.withChildren (isClass_of_superRole_ne (by simp [role])) below.stands ih)
  | classDecl _ ih => exact single (.ofClass rfl rfl (forall₂_children_classDecl .refl ih _ _))
  | classExpr _ ih => exact single (.ofClass rfl rfl (forall₂_children_classExpr .refl ih _ _))
  | misplaced | bare => exact single (.refl _)
  | @stray _ _ t word _ arguments' role _ _ ih =>
    have hemits : Emits (fun _ => True) arguments' (.node none (.call word arguments') t.range) :=
      emits_strayCall role _ _
    refine single (.ofUse role ih hemits fun hcreates => ?_)
    rw [creates, Shape.eq_call_of_superRole role]
    exact hcreates
  | direct role _ code ih =>
    exact single (.ofUse role ih code.emits fun hcreates => absurd hcreates code.not_creates)
  | bound role operands _ _ code ihKey ihRest =>
    refine single (.ofUse role ?_ code.emits fun hcreates => ?_)
    · rw [operands]
      exact .cons (List.forall₂_cons.mp ihKey).1 ihRest
    · cases code <;> cases hcreates

/-! ### Lowering -/

namespace Tree

theorem helperless_withConstructor {members : List Tree} (hasBase : Bool)
    (h : ∀ m ∈ members, m.Helperless) :
    ∀ m ∈ withConstructor members hasBase, m.Helperless := by
  refine forall_mem_withConstructor ?_ h
  cases hasBase <;>
    simp [Helperless, defaultConstructor, gen, ident, everywhere_node, Shape.children,
      Shape.helper?, helperName?]

theorem forall_memberRefs {c : String} {members : List Tree} :
    (∀ use ∈ members.flatMap (memberRefs c), use.RefersTo c) ↔
      ∀ m ∈ members, ∀ chain ∈ m.memberScopes, ∀ names ∈ chain, c ∉ names := by
  have hchain (chain : ScopeChain) :
      Use.RefersTo c ⟨⟨c, none⟩, chain⟩ ↔ ∀ names ∈ chain, c ∉ names := by
    simp [Use.RefersTo, Use.isBound]
  simp only [List.forall_mem_flatMap, memberRefs, List.forall_mem_map, hchain]

/-- What becomes of a tree is no class that has references to it, unless it was one before. -/
def Unreferring (t t' : Tree) : Prop :=
  ¬ t.creates → ∀ body, t'.classBody? = some body → body.classRefs = []

/-- Filling in children, with no references to the classes that come to be held by variables. -/
theorem captured_withChildren {t : Tree} {cs : List Tree} (raw : t.Raw)
    (h : List.Forall₂ Unreferring t.shape.children cs) :
    (t.withChildren cs).captured = cs.flatMap captured := by
  have hchildren : (t.withChildren cs).shape.children = cs :=
    Shape.children_refill h.length_eq.symm
  have hown : ownCaptured (t.withChildren cs).shape = [] := by
    obtain ⟨z, hfst, hsnd, hz⟩ := Shape.exists_pairs_of_forall₂ h
    rw [Tree.withChildren, shape_node, hsnd]
    cases z with
    | declarator p q =>
      cases q with
      | none => rfl
      | some q =>
        have hvalue := hz q (by simp [Shape.children]) (raw.value p.1 q.1 hfst)
        refine List.filter_eq_nil_iff.mpr fun c _ => ?_
        rw [decide_eq_true_eq, not_not]
        intro body hbody
        simp [hvalue body hbody]
    | _ => rfl
  rw [captured_eq, hown, hchildren, List.nil_append]

theorem captured_of_ownsTemps {t : Tree} (owner : t.shape.ownsTemps = true) :
    t.captured = t.shape.children.flatMap captured := by
  refine permeable_captured.through t ?_
  generalize t.shape = s at owner
  cases s <;> first | rfl | cases owner

end Tree

namespace Lowers

open Declass.Tree

variable {options : Options} {cx : Option String} {a a' : Account} {ts ts' : List Tree}

/-- **A class that no variable is made for has no references to it.** -/
theorem unreferring (h : Lowers options none a ts ts' a') (hts : ∀ t ∈ ts, t.Everywhere Raw) :
    List.Forall₂ Unreferring ts ts' := by
  have single {t t' : Tree} (h : Unreferring t t') : List.Forall₂ Unreferring [t] [t'] :=
    .cons h .nil
  have uncreated {t t' : Tree} (h : t'.shape.helper? = none) : Unreferring t t' := by
    intro _ body hbody
    have hcreates := creates_of_classBody? hbody
    rw [creates, h] at hcreates
    cases hcreates
  generalize hcx : none = cx at h
  induction h with
  | nil => exact .nil
  | cons _ _ ihHead ihTail =>
    obtain ⟨hhead, htail⟩ := List.forall_mem_cons.mp hts
    have head := ihHead (List.forall_mem_singleton.mpr hhead) hcx
    exact .cons (List.forall₂_cons.mp head).1 (ihTail htail hcx)
  | walk _ _ below =>
    refine single fun hcreates body hbody => absurd ?_ hcreates
    exact (Stands.helper?_eq below.stands).symm.trans (creates_of_classBody? hbody)
  | @scope _ _ t cs owner =>
    refine single (uncreated (helper?_of_ownsTemps ?_))
    exact (ownsTemps_declaring _ _).trans ((ownsTemps_withChildren t cs).trans owner)
  | classDecl | classExprBound => exact single (uncreated rfl)
  | @classExprFree _ _ _ _ _ _ base members properties _ _ below unused =>
    refine single fun _ body hbody => ?_
    obtain rfl : gen (.object properties) = body := Option.some.inj hbody
    have hmembers := helperless_withConstructor base.isSome
      ((List.forall_mem_singleton.mp hts).root.members _ rfl)
    rw [classRefs_object]
    refine (Alike.flatMap (below.alike_members hmembers)).nil_iff.mpr ?_
    refine List.flatMap_eq_nil_iff.mpr fun m hm => ?_
    rw [memberRefs, below.memberScopes_eq_nil unused m hm, List.map_nil]
  | member => cases hcx

/-- **The captured classes are the shadowed ones.** -/
theorem captured_eq (h : Lowers options cx a ts ts' a') (hts : ∀ t ∈ ts, t.Everywhere Raw)
    (hmembers : cx ≠ none → ∀ t ∈ ts, t.Helperless)
    (hnames : ∀ c ∈ ts.flatMap classNames, ¬ IsTemp c) :
    ts'.flatMap captured = ts.flatMap shadowed := by
  have single {t t' : Tree} (h : t'.captured = t.shadowed) :
      [t'].flatMap captured = [t].flatMap shadowed := by simp [h]
  induction h with
  | nil => rfl
  | cons _ _ ihHead ihTail =>
    obtain ⟨hhead, htail⟩ := List.forall_mem_cons.mp hts
    rw [List.flatMap_cons, List.forall_mem_append] at hnames
    have head := ihHead (List.forall_mem_singleton.mpr hhead)
      (fun hcx => List.forall_mem_singleton.mpr (hmembers hcx _ List.mem_cons_self))
      (by simpa using hnames.1)
    have tail := ihTail htail (fun hcx t ht => hmembers hcx t (List.mem_cons_of_mem _ ht)) hnames.2
    rw [List.flatMap_cons, tail]
    simpa using head
  | walk plain _ below ih =>
    have hraw := List.forall_mem_singleton.mp hts
    rw [List.flatMap_singleton, classNames_of_not_isClass plain] at hnames
    refine single ?_
    rw [captured_withChildren hraw.root (below.unreferring fun c hc => hraw.child hc),
      ih (fun c hc => hraw.child hc) (absurd rfl) hnames, shadowed_of_not_isClass plain]
  | @scope _ _ t cs owner below ih =>
    have hraw := List.forall_mem_singleton.mp hts
    have plain := isClass_of_ownsTemps owner
    have howner := (ownsTemps_withChildren t cs).trans owner
    rw [List.flatMap_singleton, classNames_of_not_isClass plain] at hnames
    refine single ?_
    rw [permeable_captured.declaring howner, captured_of_ownsTemps howner,
      Tree.withChildren, shape_node, Shape.children_refill below.length_eq,
      ih (fun c hc => hraw.child hc) (absurd rfl) hnames, shadowed_of_not_isClass plain]
  | @classDecl _ _ _ _ name _ base members properties _ c named above below ihAbove ihBelow =>
    have hraw := List.forall_mem_singleton.mp hts
    have hless := helperless_withConstructor base.isSome (hraw.root.members _ rfl)
    rw [List.flatMap_singleton, classNames_classDecl, List.forall_mem_append,
      List.forall_mem_append, ← classNames_withConstructor members base.isSome] at hnames
    obtain ⟨hname, hbelow, habove⟩ := hnames
    have hrefs := (Alike.flatMap (below.alike_members hless)).forall_iff (hname c (by simp [named]))
    have hown : nameUnless name (fun c => ∀ use ∈ properties.flatMap classRefs, use.RefersTo c) =
        ownShadowed name members base.isSome := by
      refine nameUnless_congr fun d hd => ?_
      obtain rfl : c = d := Option.some.inj (named.symm.trans hd)
      exact hrefs.trans forall_memberRefs
    refine single ?_
    rw [captured_declareClass _ named, shadowed_classDecl, ← above.isSome_eq, hown,
      ihAbove (fun c hc => hraw.child (by simp [Shape.children, hc])) (absurd rfl) habove,
      ihBelow (fun m hm => (hless m hm).everywhere_raw) (fun _ => hless) hbelow,
      shadowed_withConstructor]
  | @classExprBound _ _ _ _ _ heritage base members _ _ above below _ ihAbove ihBelow =>
    have hraw := List.forall_mem_singleton.mp hts
    have hless := helperless_withConstructor base.isSome (hraw.root.members _ rfl)
    rw [List.flatMap_singleton, classNames_classExpr, List.forall_mem_append,
      ← classNames_withConstructor members base.isSome] at hnames
    refine single ?_
    rw [permeable_captured.assignTemp, permeable_captured.createClass, shadowed_classExpr,
      ihAbove (fun c hc => hraw.child (by simp [Shape.children, hc])) (absurd rfl) hnames.2,
      ihBelow (fun m hm => (hless m hm).everywhere_raw) (fun _ => hless) hnames.1,
      shadowed_withConstructor]
  | @classExprFree _ _ _ _ _ heritage base members _ _ above below _ ihAbove ihBelow =>
    have hraw := List.forall_mem_singleton.mp hts
    have hless := helperless_withConstructor base.isSome (hraw.root.members _ rfl)
    rw [List.flatMap_singleton, classNames_classExpr, List.forall_mem_append,
      ← classNames_withConstructor members base.isSome] at hnames
    refine single ?_
    rw [permeable_captured.createClass, shadowed_classExpr,
      ihAbove (fun c hc => hraw.child (by simp [Shape.children, hc])) (absurd rfl) hnames.2,
      ihBelow (fun m hm => (hless m hm).everywhere_raw) (fun _ => hless) hnames.1,
      shadowed_withConstructor]
  | @member _ _ _ _ t cs cs' kind legal expanded below ih =>
    have hless : t.Helperless := hmembers (by simp) t List.mem_cons_self
    have owner := ownsTemps_of_ofShape? legal
    have plain := isClass_of_ownsTemps owner
    have howner := (ownsTemps_withChildren t cs').trans owner
    rw [List.flatMap_singleton, classNames_of_not_isClass plain, ← expanded.classNames_eq] at hnames
    have hraw : ∀ c ∈ cs, c.Everywhere Raw :=
      Unmade.forall_mem expanded.unmade fun c hc => hless.everywhere_raw.child hc
    refine single ?_
    rw [permeable_captured.asProperty ((ofShape?_declaring _ _ _).trans legal),
      permeable_captured.declaring howner, captured_of_ownsTemps howner, Tree.withChildren,
      shape_node, Shape.children_refill (below.length_eq.trans expanded.length_eq),
      ih hraw (absurd rfl) hnames, expanded.shadowed_eq, shadowed_of_not_isClass plain]

end Lowers

/-! ### Programs -/

theorem Tree.Everywhere.helperless {t : Tree} (h : t.Everywhere fun u => u.isGenerated = false) :
    t.Helperless := by
  induction h with
  | @node o s r root below ih =>
    refine .node ?_ ih
    cases s with
    | call callee arguments =>
      have hcallee := below callee (by simp [Shape.children])
      simp only [Tree.shape_node, Shape.helper?, Tree.helperName?]
      split
      case h_1 space name hmember =>
        have hspace := hcallee.child (c := space) (by simp [hmember, Shape.children])
        exact if_neg (by simp [hspace.root])
      case h_2 => rfl
    | _ => rfl

/-- The uses of names in the tree of a store bear marks, so no helper is called in it. -/
theorem Store.Grounded.helperless {s : Store} {id : NodeId} (hg : s.Grounded id) :
    (s.tree s.size id).Helperless := by
  refine (hg.everywhere fun a node hr found => ?_).helperless
  have hga := hg.reaches hr
  rw [hga.tree_eq found, Tree.isGenerated]
  split
  case h_1 horigin hshape =>
    obtain ⟨name, hname⟩ : ∃ name, node.shape = .identifier name := by
      cases hs : node.shape <;> simp_all [Shape.map]
    simp [originOf, hname, hga.index_lt, Shape.isLeaf] at horigin
  case h_2 => rfl

/-- **The classes that references from their members miss are those whose name is hidden from a use
of `super`,** if no class is named like a temporary. -/
theorem lowerProgram_captured {s : Store} {root lowered : NodeId} {options : Options}
    {state : LoweringState} {session : Session LoweringState} (closed : s.Closed root)
    (acyclic : s.Acyclic root) (names : ∀ c ∈ (s.tree s.size root).classNames, ¬ IsTemp c)
    (run : (lowerProgram options root).runOn ⟨s, state⟩ = (.ok lowered, session)) :
    (session.store.tree s.size lowered).captured = (s.tree s.size root).shadowed := by
  have hg : s.Grounded root := Store.grounded_iff.mpr ⟨closed, acyclic⟩
  have hspec := lowerProgram_spec hg options s.size le_rfl state
  change exec (lowerProgram options root) ⟨s, state⟩ = _ at run
  rw [run] at hspec
  obtain ⟨-, t', ⟨-, rfl⟩, hlowers⟩ := hspec
  have hcaptured := hlowers.captured_eq (List.forall_mem_singleton.mpr hg.helperless.everywhere_raw)
    (absurd rfl) (by simpa using names)
  simpa using hcaptured

/-- `class C extends B` with the method `m(v)` that makes the function `(w) => super[w] += v`, then
`class args extends C {}`. -/
def heirsStore : Store where
  nodes := #[⟨.binding "C", none⟩, ⟨.identifier "B", none⟩, ⟨.binding "v", none⟩,
    ⟨.parameter ⟨2⟩ none false, none⟩, ⟨.binding "w", none⟩, ⟨.parameter ⟨4⟩ none false, none⟩,
    ⟨.superExpr, none⟩, ⟨.identifier "w", none⟩, ⟨.lookup ⟨6⟩ ⟨7⟩, none⟩, ⟨.identifier "v", none⟩,
    ⟨.binary ⟨8⟩ "+=" ⟨9⟩, none⟩, ⟨.arrow [⟨5⟩] ⟨10⟩, none⟩, ⟨.exprStatement ⟨11⟩, none⟩,
    ⟨.block [⟨12⟩], none⟩, ⟨.method (.identifier "m") [⟨3⟩] ⟨13⟩, none⟩,
    ⟨.classDecl ⟨0⟩ (some ⟨1⟩) [⟨14⟩], none⟩, ⟨.binding "args", none⟩, ⟨.identifier "C", none⟩,
    ⟨.classDecl ⟨16⟩ (some ⟨17⟩) [], none⟩, ⟨.program [⟨15⟩, ⟨18⟩], none⟩]

/-- All references to `C` are to the class, and that to `args` is to the parameter of the default
constructor. -/
theorem lowerProgram_captured_heirs : ∃ lowered session,
    (lowerProgram {} ⟨19⟩).runOn ⟨heirsStore, {}⟩ = (.ok lowered, session) ∧
      (session.store.tree 20 lowered).captured = ["args"] := by
  have fits : heirsStore.Fits 20 ⟨19⟩ := by decide +kernel
  obtain ⟨closed, acyclic⟩ := Store.grounded_iff.mp fits.grounded
  have names : ∀ c ∈ (heirsStore.tree 20 ⟨19⟩).classNames, c.toList.take 3 ≠ ['$', '_', '_'] := by
    decide +kernel
  have shadowed : (heirsStore.tree 20 ⟨19⟩).shadowed = ["args"] := by decide +kernel
  have ok : ((lowerProgram {} ⟨19⟩).runOn ⟨heirsStore, {}⟩).1.isOk := by decide +kernel
  generalize run : (lowerProgram {} ⟨19⟩).runOn ⟨heirsStore, {}⟩ = out at ok ⊢
  obtain ⟨_ | lowered, session⟩ := out
  · cases ok
  · have captured := lowerProgram_captured closed acyclic
      (fun c hc htemp => names c hc htemp.take_toList) run
    exact ⟨lowered, session, rfl, captured.trans shadowed⟩

/-- `class C extends B { m(C) { super.m(); } }` -/
def hidingParameterStore : Store where
  nodes := #[⟨.binding "C", none⟩, ⟨.identifier "B", none⟩, ⟨.binding "C", none⟩,
    ⟨.parameter ⟨2⟩ none false, none⟩, ⟨.superExpr, none⟩, ⟨.member ⟨4⟩ "m", none⟩,
    ⟨.call ⟨5⟩ [], none⟩, ⟨.exprStatement ⟨6⟩, none⟩, ⟨.block [⟨7⟩], none⟩,
    ⟨.method (.identifier "m") [⟨3⟩] ⟨8⟩, none⟩, ⟨.classDecl ⟨0⟩ (some ⟨1⟩) [⟨9⟩], none⟩,
    ⟨.program [⟨10⟩], none⟩]

/-- `class $__0 { m() { super[k] += v; } }` -/
def hidingTempStore : Store where
  nodes := #[⟨.binding "$__0", none⟩, ⟨.superExpr, none⟩, ⟨.identifier "k", none⟩,
    ⟨.lookup ⟨1⟩ ⟨2⟩, none⟩, ⟨.identifier "v", none⟩, ⟨.binary ⟨3⟩ "+=" ⟨4⟩, none⟩,
    ⟨.exprStatement ⟨5⟩, none⟩, ⟨.block [⟨6⟩], none⟩, ⟨.method (.identifier "m") [] ⟨7⟩, none⟩,
    ⟨.classDecl ⟨0⟩ none [⟨8⟩], none⟩, ⟨.program [⟨9⟩], none⟩]

/-- **Classes that are captured:** one by a parameter of a method, and one by a temporary that is
declared in a method, although no scope of the program hides it. -/
theorem lowerProgram_missed :
    let out := (lowerProgram {} ⟨11⟩).runOn ⟨hidingParameterStore, {}⟩
    let out' := (lowerProgram {} ⟨10⟩).runOn ⟨hidingTempStore, {}⟩
    (out.1 = .ok ⟨52⟩ ∧ (out.2.store.tree 12 ⟨52⟩).captured = ["C"]) ∧
      (hidingTempStore.tree 11 ⟨10⟩).shadowed = [] ∧ out'.1 = .ok ⟨50⟩ ∧
      (out'.2.store.tree 11 ⟨50⟩).captured = ["$__0"] := by
  decide +kernel

end Declass
