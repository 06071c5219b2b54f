import Declass.Proofs.SuperRole

/-!
# What rewriting keeps

The code that a use of `super` becomes is put together from the operands of the use, in their order,
with nothing between them but calls, operators and generated leaves. So every way of collecting
values from a tree that passes through such constructs finds the same in the use and in the code
that it becomes. From this follows, by one induction for all such collections, that the expansion of
`super` keeps what they find in each tree.

## Main definitions

* `Tree.Additive` — a collection that passes through generated code
* `Tree.Emits` — a tree put together from operands

## Main results

* `Tree.gather_node`, `Tree.additive_gather`
* `Tree.Emits.everywhere` — a property of generated code
* `Expands.forall₂` — a relation that holds of every kind of step holds of every expansion
* `Expands.gather_eq` — the expansion of `super` keeps what is collected
-/

namespace Declass

variable {α β γ : Type}

/-! ### Collections -/

/-- The parts with other values. -/
def ClassParts.map (f : α → β) (parts : ClassParts α) : ClassParts β :=
  ⟨parts.name.map f, parts.heritage.map f, parts.members.map f⟩

namespace Shape

theorem classParts?_map (f : α → β) (s : Shape α) :
    (s.map f).classParts? = s.classParts?.map (ClassParts.map f) := by
  cases s <;> rfl

/-- What is no class has no parts of one. -/
theorem classParts?_eq_none {s : Shape α} (h : s.isClass = false) : s.classParts? = none := by
  cases s <;> first | rfl | cases h

theorem isClass_of_classParts?_eq_none {s : Shape α} (h : s.classParts? = none) :
    s.isClass = false := by
  cases s <;> first | rfl | cases h

/-- The heritage and the members of a class are among its children, in this order. -/
theorem sublist_children_of_classParts? {s : Shape α} {parts : ClassParts α}
    (h : s.classParts? = some parts) :
    (parts.heritage.toList ++ parts.members).Sublist s.children := by
  cases s with
  | classDecl => cases h; exact List.sublist_cons_self _ _
  | classExpr => cases h; exact List.sublist_append_right _ _
  | _ => cases h

theorem mem_children_of_mem_name {s : Shape α} {parts : ClassParts α}
    (h : s.classParts? = some parts) {c : α} (hc : c ∈ parts.name) : c ∈ s.children := by
  cases s <;> cases h <;> simp_all [children]

theorem mem_children_of_mem_members {s : Shape α} {parts : ClassParts α}
    (h : s.classParts? = some parts) {c : α} (hc : c ∈ parts.members) : c ∈ s.children :=
  (sublist_children_of_classParts? h).subset (List.mem_append_right _ hc)

end Shape

/-- The kind of a member does not depend on its parts. -/
theorem MemberKind.ofShape?_map (f : α → β) (s : Shape α) : ofShape? (s.map f) = ofShape? s := by
  cases s <;> rfl

namespace Tree

variable {own : Option NodeId → Shape Tree → List γ}
  {atClass : ClassParts (Tree × List γ) → List γ}

/-- At a class the gathering is left to `atClass`. -/
theorem gather_node (o : Option NodeId) (s : Shape Tree) (r : Option Range) :
    gather own atClass (.node o s r) = match s.classParts? with
      | some parts => atClass (parts.map fun c => (c, gather own atClass c))
      | none => own o s ++ s.children.flatMap (gather own atClass) := by
  rw [gather, para_node, Shape.classParts?_map, Shape.map_map]
  cases s.classParts? with
  | some parts => rfl
  | none =>
    simp only [Option.map_none, Shape.children_map, List.flatMap_map, Function.comp_def]
    congr 2
    exact Shape.map_id s

/-- What is no class has its own items before those of its children. -/
theorem gather_of_not_isClass {t : Tree} (h : t.shape.isClass = false) :
    gather own atClass t = own t.origin t.shape ++
      t.shape.children.flatMap (gather own atClass) := by
  obtain ⟨o, s, r⟩ := t
  rw [shape_node] at h
  rw [gather_node, Shape.classParts?_eq_none h]
  rfl

/-- Generated code without classes. -/
def Synthetic : Tree → Prop :=
  Everywhere fun t => t.origin = none ∧ t.shape.isClass = false

/-- There is nothing to gather where nothing is from the text. -/
theorem Synthetic.gather_eq_nil (hown : ∀ s, own none s = []) {t : Tree} (h : t.Synthetic) :
    gather own atClass t = [] := by
  induction h with
  | node root _ ih =>
    obtain ⟨rfl, hclass⟩ := root
    rw [gather_of_not_isClass hclass]
    exact List.append_eq_nil_iff.mpr ⟨hown _, List.flatMap_eq_nil_iff.mpr ih⟩

theorem synthetic_defaultConstructor (hasBase : Bool) : (defaultConstructor hasBase).Synthetic := by
  cases hasBase <;>
    simp [Synthetic, defaultConstructor, gen, ident, everywhere_node, Shape.children, Shape.isClass]

/-- What holds of the members of a class and of a default constructor. -/
theorem forall_mem_withConstructor {p : Tree → Prop} {members : List Tree} {hasBase : Bool}
    (hconstructor : p (defaultConstructor hasBase)) (h : ∀ m ∈ members, p m) :
    ∀ m ∈ withConstructor members hasBase, p m := by
  rw [withConstructor]
  split
  · exact h
  · exact List.forall_mem_append.mpr ⟨h, List.forall_mem_singleton.mpr hconstructor⟩

/-- Nothing is collected from a default constructor. -/
theorem flatMap_withConstructor (hown : ∀ s, own none s = []) (members : List Tree)
    (hasBase : Bool) : (withConstructor members hasBase).flatMap (gather own atClass) =
      members.flatMap (gather own atClass) := by
  have hconstructor : gather own atClass (defaultConstructor hasBase) = [] :=
    (synthetic_defaultConstructor hasBase).gather_eq_nil hown
  rw [withConstructor]
  split
  · rfl
  · rw [List.flatMap_append, List.flatMap_singleton, hconstructor, List.append_nil]

/-- A collection that passes through the constructs of generated code and finds nothing in the
leaves of it, if the names used there are among `names`. -/
structure Additive (names : String → Prop) (φ : Tree → List γ) : Prop where
  glue : ∀ t : Tree, t.shape.isGlue = true → φ t = t.shape.children.flatMap φ
  ident : ∀ name, names name → φ (.ident name) = []
  this : φ (gen .thisExpr) = []
  literal : ∀ value, φ (gen (.literal value)) = []

variable {names : String → Prop}

theorem additive_gather (hglue : ∀ o s, s.isGlue = true → own o s = [])
    (hleaf : ∀ s, own none s = []) : Additive names (gather own atClass) where
  glue t ht := by
    rw [gather_of_not_isClass (Shape.isClass_of_isGlue ht), hglue _ _ ht, List.nil_append]
  ident name _ := by
    rw [gather_of_not_isClass rfl]
    simp [ident, gen, hleaf, Shape.children]
  this := by
    rw [gather_of_not_isClass rfl]
    simp [gen, hleaf, Shape.children]
  literal value := by
    rw [gather_of_not_isClass rfl]
    simp [gen, hleaf, Shape.children]

theorem Additive.mono {φ : Tree → List γ} (h : Additive names φ) {names' : String → Prop}
    (hsub : ∀ name, names' name → names name) : Additive names' φ :=
  { h with ident := fun name hname => h.ident name (hsub name hname) }

theorem Additive.node {φ : Tree → List γ} (h : Additive names φ) {s : Shape Tree}
    (hs : s.isGlue = true) (o : Option NodeId) (r : Option Range) :
    φ (.node o s r) = s.children.flatMap φ :=
  h.glue (.node o s r) hs

/-! ### Generated code -/

/-- A tree put together from operands, in their order, by means of generated code that uses no other
names than `names`. -/
structure Emits (names : String → Prop) (operands : List Tree) (t : Tree) : Prop where
  isGlue : t.shape.isGlue = true
  eq_flatMap : ∀ {γ : Type} {φ : Tree → List γ}, Additive names φ → φ t = operands.flatMap φ

/-- Generated code has a property if its constructs, its leaves and its operands have it. -/
theorem Emits.everywhere {p : Tree → Prop} {names : String → Prop} {operands : List Tree} {t : Tree}
    (h : Emits names operands t) (glue : ∀ t : Tree, t.shape.isGlue = true → p t)
    (leaf : ∀ t : Tree, t.shape.isLeaf = true → p t) (below : ∀ c ∈ operands, c.Everywhere p) :
    t.Everywhere p := by
  classical
  have hleaf (s : Shape Tree) (hs : s.isLeaf = true) : violations p (gen s) = [] := by
    rw [violations_of, if_pos (leaf (gen s) hs), List.nil_append, gen, shape_node,
      Shape.children_eq_nil_of_isLeaf hs, List.flatMap_nil]
  have hadditive : Additive names (violations p) := {
    glue := fun t ht => by rw [violations_of, if_pos (glue t ht), List.nil_append]
    ident := fun name _ => hleaf _ rfl
    this := hleaf _ rfl
    literal := fun value => hleaf _ rfl }
  rw [everywhere_iff_violations, h.eq_flatMap hadditive, List.flatMap_eq_nil_iff]
  exact fun c hc => everywhere_iff_violations.mp (below c hc)

theorem Emits.mono {names' : String → Prop} {operands : List Tree} {t : Tree}
    (h : Emits names operands t) (hsub : ∀ name, names name → names' name) :
    Emits names' operands t :=
  ⟨h.isGlue, fun hφ => h.eq_flatMap (hφ.mono hsub)⟩

end Tree

namespace Site

open Declass.Tree

/-- The names that generated code may use anywhere in a member. -/
def Names (site : Site) (name : String) : Prop :=
  name = site.runtimeName ∨ name = site.className

variable {site : Site} {names : String → Prop} {φ : Tree → List γ}

section

variable (h : Additive names φ) (hsite : ∀ name, site.Names name → names name)

include h hsite

theorem additive_helperCall (helper : Helper) (arguments : List Tree) (range : Option Range) :
    φ (site.helperCall helper arguments range) = arguments.flatMap φ := by
  have hruntime := h.ident _ (hsite _ (.inl rfl))
  have hclass := h.ident _ (hsite _ (.inr rfl))
  have hhelper : φ (.helper site.runtimeName helper) = [] := by
    rw [Tree.helper, gen, h.node rfl]
    simp [Shape.children, hruntime]
  rw [helperCall, h.node rfl]
  simp [Shape.children, hclass, hhelper, h.this]

theorem additive_superCall (key : Tree) (arguments : List Tree) (range : Option Range) :
    φ (site.superCall key arguments range) = φ key ++ arguments.flatMap φ := by
  have harray : φ (gen (.array arguments)) = arguments.flatMap φ := h.node rfl none none
  rw [superCall, additive_helperCall h hsite]
  simp [harray]

theorem additive_compound {key : Tree} (hkey : φ key = []) (operator : String) (value : Tree)
    (range : Option Range) : φ (site.compound key operator value range) = φ value := by
  have hget : φ (site.superGet key none) = [] := by
    rw [superGet, additive_helperCall h hsite]
    simp [hkey]
  rw [compound]
  split
  · rw [h.node rfl]
    simp [Shape.children, hget, superSet, additive_helperCall h hsite, hkey]
  · have hbinary : φ (gen (.binary (site.superGet key none) operator value)) = φ value := by
      rw [gen, h.node rfl]
      simp [Shape.children, hget]
    rw [superSet, additive_helperCall h hsite]
    simp [hkey, hbinary]

theorem additive_update {key : Tree} (hkey : φ key = []) (operator : String)
    (range : Option Range) : φ (site.update key operator range) = [] := by
  have hunary : φ (gen (.unary "+" (site.superGet key none))) = [] := by
    rw [gen, h.node rfl]
    simp [Shape.children, superGet, additive_helperCall h hsite, hkey]
  have hbinary : φ (gen (.binary (gen (.unary "+" (site.superGet key none))) operator
      (gen (.literal (.number "1"))))) = [] := by
    rw [gen, h.node rfl]
    simp [Shape.children, hunary, h.literal]
  rw [update, superSet, additive_helperCall h hsite]
  simp [hkey, hbinary]

end

/-- A key has what is in the operands that it is written with. -/
theorem Key.eq_flatMap (h : Additive names φ) {key : MemberKey Tree} {keys : List Tree} {k : Tree}
    (written : Key key keys k) : φ k = keys.flatMap φ := by
  cases written with
  | named => exact h.literal _
  | computed => simp

/-- The code of a use without a temporary is put together from its operands. -/
theorem Direct.emits {range : Option Range} {use : SuperUse Tree} {operands : List Tree} {t : Tree}
    (code : site.Direct range use operands t) : Emits site.Names operands t where
  isGlue := by
    cases code with
    | compound =>
      rw [Site.compound]
      split <;> rfl
    | _ => rfl
  eq_flatMap {γ φ} h := by
    have htext (value : String) : φ (.text value) = [] := h.literal _
    have hsite (name : String) (hname : site.Names name) : site.Names name := hname
    cases code with
    | call _ => simp [additive_superCall h hsite, htext]
    | methodCall written => simp [additive_superCall h hsite, written.eq_flatMap h]
    | assign written => simp [superSet, additive_helperCall h hsite, written.eq_flatMap h]
    | get written => simp [superGet, additive_helperCall h hsite, written.eq_flatMap h]
    | compound => simp [additive_compound h hsite (htext _)]
    | update => simp [additive_update h hsite (htext _)]

/-- The code of a use with a temporary is put together from its operands, the key first. -/
theorem Bound.emits {range : Option Range} {number : Nat} {use : SuperUse Tree} {key t : Tree}
    {rest : List Tree} (code : site.Bound range number use key rest t) :
    Emits (fun name => site.Names name ∨ name = Temps.name number) (key :: rest) t where
  isGlue := by cases code <;> rfl
  eq_flatMap {γ φ} h := by
    have htemp : φ (temp number) = [] := h.ident _ (.inr rfl)
    have hsequence (expression : Tree) :
        φ (sequence number key expression range) = φ key ++ φ expression := by
      have hassign : φ (.assign (temp number) key) = φ key := by
        rw [Tree.assign, gen, h.node rfl]
        simp [Shape.children, htemp]
      have hcomma : φ (gen (.comma [.assign (temp number) key, expression])) =
          φ key ++ φ expression := by
        rw [gen, h.node rfl]
        simp [Shape.children, hassign]
      rw [sequence, h.node rfl]
      simp [Shape.children, hcomma]
    cases code with
    | compound => simp [hsequence, additive_compound h (fun _ => .inl) htemp]
    | update => simp [hsequence, additive_update h (fun _ => .inl) htemp]

end Site

/-- A call of `super` that stays is put together from its arguments. -/
theorem Tree.emits_strayCall {names : String → Prop} {t word : Tree} {arguments : List Tree}
    (role : t.superRole = .use (.call word arguments)) (arguments' : List Tree) (r : Option Range) :
    Emits names arguments' (.node none (.call word arguments') r) where
  isGlue := rfl
  eq_flatMap {γ φ} h := by
    have hword : φ word = [] := by
      have huse := Shape.isUse_of_superRole role
      rw [Shape.eq_call_of_superRole role] at huse
      cases huse with
      | call hword =>
        refine eq_nil_of_isSuper (fun t ht => h.glue t (isGlue_of_isUseForm ht)) ?_
        simpa using hword
    rw [h.node rfl]
    simp [Shape.children, hword]

/-! ### Accounts -/

namespace Account

variable {a a₁ a' : Account}

/-- From one account to another, `super` may have come into use and the innermost scope of
temporaries may have come to hold more of them. -/
structure Extends (a a' : Account) : Prop where
  used : a.used = true → a'.used = true
  scopes : ∃ new, a'.temps.scopes = a.temps.scopes.modifyHead (· ++ new)

/-- The innermost scope of temporaries holds a number, if there is such a scope. -/
def Holds (a : Account) (number : Nat) : Prop :=
  ∀ held ∈ a.temps.scopes.head?, number ∈ held

namespace Extends

theorem refl (a : Account) : a.Extends a :=
  ⟨id, [], by cases a.temps.scopes <;> simp⟩

theorem trans (h₁ : a.Extends a₁) (h₂ : a₁.Extends a') : a.Extends a' := by
  obtain ⟨used₁, new₁, scopes₁⟩ := h₁
  obtain ⟨used₂, new₂, scopes₂⟩ := h₂
  refine ⟨used₂ ∘ used₁, new₁ ++ new₂, ?_⟩
  rw [scopes₂, scopes₁]
  cases a.temps.scopes <;> simp

theorem report (a : Account) (range : Option Range) (message : Message) :
    a.Extends (a.report range message) :=
  ⟨(refl a).used, (refl a).scopes⟩

theorem use (h : a.Extends a') : a.Extends (a'.withUsed true) :=
  ⟨fun _ => rfl, h.scopes⟩

theorem allocate (a : Account) : a.Extends a.allocate := by
  refine ⟨id, [a.fresh], ?_⟩
  have hhold (number : Nat) (scopes : List (List Nat)) :
      Temps.hold number scopes = scopes.modifyHead (· ++ [number]) := by
    cases scopes <;> rfl
  simp only [Account.allocate, fresh, Temps.allocate]
  split <;> exact hhold _ _

theorem holds (h : a.Extends a') {number : Nat} (hn : a.Holds number) : a'.Holds number := by
  obtain ⟨new, hscopes⟩ := h.scopes
  rw [Holds, hscopes]
  rw [Holds] at hn
  cases hs : a.temps.scopes with
  | nil => simp
  | cons held rest =>
    rw [hs] at hn
    simpa using .inl (hn held rfl)

end Extends

theorem holds_fresh (a : Account) : a.allocate.Holds a.fresh := by
  have hhold (number : Nat) (scopes : List (List Nat)) :
      ∀ held ∈ (Temps.hold number scopes).head?, number ∈ held := by
    cases scopes <;> simp [Temps.hold]
  simp only [Holds, allocate, fresh, Temps.allocate]
  split <;> exact hhold _ _

end Account

theorem Expands.extends {site : Site} {nested : Bool} {a a' : Account} {ts ts' : List Tree}
    (h : Expands site nested a ts ts' a') : a.Extends a' := by
  induction h with
  | nil => exact .refl _
  | cons _ _ ihHead ihTail => exact ihHead.trans ihTail
  | walk _ _ ih | enter _ _ ih | classDecl _ ih | classExpr _ ih => exact ih
  | misplaced _ | bare _ => exact .report _ _ _
  | stray _ _ _ ih => exact (Account.Extends.report _ _ _).trans ih
  | direct _ _ _ ih => exact ih.use
  | bound _ _ _ _ _ ihKey ihRest =>
    exact (ihKey.trans ((Account.Extends.allocate _).trans ihRest)).use

/-! ### Expansion -/

namespace Expands

variable {site : Site} {nested : Bool} {a a' : Account} {ts ts' : List Tree}

/-- Each tree is expanded to one tree. -/
theorem length_eq (h : Expands site nested a ts ts' a') : ts'.length = ts.length := by
  induction h with
  | cons _ _ _ ih => simpa using ih
  | _ => rfl

/-- A relation between trees that holds of every kind of step of an expansion whose generated code
uses no other names than `names`. -/
structure Compatible (names : String → Prop) (R : Tree → Tree → Prop) : Prop where
  refl : ∀ t, R t t
  walk : ∀ (t : Tree) (cs : List Tree), t.shape.isClass = false →
    List.Forall₂ R t.shape.children cs → R t (t.withChildren cs)
  classDecl : ∀ o name h h' ms r, List.Forall₂ R h.toList h'.toList →
    R (.node o (.classDecl name h ms) r) (.node o (.classDecl name h' ms) r)
  classExpr : ∀ o name h h' ms r, List.Forall₂ R h.toList h'.toList →
    R (.node o (.classExpr name h ms) r) (.node o (.classExpr name h' ms) r)
  use : ∀ {t t' : Tree} {use : SuperUse Tree} {operands : List Tree}, t.superRole = .use use →
    List.Forall₂ R use.operands operands → Tree.Emits names operands t' → R t t'

/-- **A relation that holds of every kind of step holds of every expansion.** The names to be
allowed for are the namespace of the helpers, the class if `super` was used, and the temporaries
that are held in the end. -/
theorem forall₂ {names : String → Prop} {R : Tree → Tree → Prop} (step : Compatible names R)
    (h : Expands site nested a ts ts' a') (runtime : names site.runtimeName)
    (className : a'.used = true → names site.className)
    (temps : ∀ number, a'.Holds number → names (Temps.name number)) : List.Forall₂ R ts ts' := by
  have single {t t' : Tree} (h : R t t') : List.Forall₂ R [t] [t'] := .cons h .nil
  have hsite (hclass : names site.className) (name : String) (hname : site.Names name) :
      names name := by
    rcases hname with rfl | rfl
    · exact runtime
    · exact hclass
  induction h with
  | nil => exact .nil
  | cons _ tail ihHead ihTail =>
    have hextends := tail.extends
    have hhead := ihHead (fun hused => className (hextends.used hused))
      fun number hn => temps number (hextends.holds hn)
    exact .cons (List.forall₂_cons.mp hhead).1 (ihTail className temps)
  | walk role _ ih =>
    exact single (step.walk _ _ (Tree.isClass_of_superRole_ne (by simp [role]))
      (ih className temps))
  | enter role _ ih =>
    exact single (step.walk _ _ (Tree.isClass_of_superRole_ne (by simp [role]))
      (ih className temps))
  | classDecl _ ih => exact single (step.classDecl _ _ _ _ _ _ (ih className temps))
  | classExpr _ ih => exact single (step.classExpr _ _ _ _ _ _ (ih className temps))
  | misplaced _ | bare _ => exact single (step.refl _)
  | stray role _ _ ih =>
    exact single (step.use role (ih className temps) (Tree.emits_strayCall role _ _))
  | direct role _ code ih =>
    have hclass := className rfl
    exact single (step.use role (ih (fun _ => hclass) temps) (code.emits.mono (hsite hclass)))
  | @bound a a₁ a' t t' index key use rest rest' role operands _ below code ihKey ihRest =>
    have hclass := className rfl
    have hextends := below.extends
    have hfresh : names (Temps.name a₁.fresh) := temps _ (hextends.holds a₁.holds_fresh)
    have hkey := ihKey (fun _ => hclass) fun number hn =>
      temps number (hextends.holds ((Account.Extends.allocate a₁).holds hn))
    refine single (step.use role ?_ (code.emits.mono ?_))
    · rw [operands]
      exact .cons (List.forall₂_cons.mp hkey).1 (ihRest (fun _ => hclass) temps)
    · rintro name (hname | rfl)
      · exact hsite hclass name hname
      · exact hfresh

/-- The same, for a relation that does not depend on the names used. -/
theorem forall₂' {R : Tree → Tree → Prop} (step : Compatible (fun _ => True) R)
    (h : Expands site nested a ts ts' a') : List.Forall₂ R ts ts' :=
  h.forall₂ step trivial (fun _ => trivial) fun _ _ => trivial

end Expands

/-- Two rewritings in a row, child by child. -/
theorem forall₂_comp {R : α → β → Prop} {S : β → γ → Prop} {T : α → γ → Prop}
    (h : ∀ {t u v}, R t u → S u v → T t v) {ts : List α} {us : List β} {vs : List γ}
    (h₁ : List.Forall₂ R ts us) (h₂ : List.Forall₂ S us vs) : List.Forall₂ T ts vs := by
  induction h₁ generalizing vs with
  | nil =>
    cases h₂
    exact .nil
  | cons head _ ih =>
    cases h₂ with
    | cons head' tail' => exact .cons (h head head') (ih tail')

theorem forall_mem_of_forall₂ {R : α → β → Prop} {p : α → Prop} {q : β → Prop} {as : List α}
    {bs : List β} (h : List.Forall₂ R as bs) (step : ∀ a b, R a b → p a → q b)
    (has : ∀ a ∈ as, p a) : ∀ b ∈ bs, q b := by
  induction h with
  | nil => exact List.forall_mem_nil q
  | cons head _ ih =>
    obtain ⟨ha, has⟩ := List.forall_mem_cons.mp has
    exact List.forall_mem_cons.mpr ⟨step _ _ head ha, ih has⟩

/-- The children of a class whose heritage is related to that of another. -/
theorem forall₂_children_classDecl {R : Tree → Tree → Prop} (refl : ∀ t, R t t) {h h' : Option Tree}
    (heritage : List.Forall₂ R h.toList h'.toList) (name : Tree) (members : List Tree) :
    List.Forall₂ R (Shape.classDecl name h members).children
      (Shape.classDecl name h' members).children :=
  .cons (refl name) (List.rel_append heritage (List.forall₂_same.mpr fun t _ => refl t))

/-- Class expressions that differ in the heritage, matched part by part. -/
theorem forall₂_children_classExpr {R : Tree → Tree → Prop} (refl : ∀ t, R t t) {h h' : Option Tree}
    (heritage : List.Forall₂ R h.toList h'.toList) (name : Option Tree) (members : List Tree) :
    List.Forall₂ R (Shape.classExpr name h members).children
      (Shape.classExpr name h' members).children :=
  List.rel_append (List.forall₂_same.mpr fun t _ => refl t)
    (List.rel_append heritage (List.forall₂_same.mpr fun t _ => refl t))

/-- The children of a shape and those to take their place, pair by pair. -/
theorem Shape.exists_pairs_of_forall₂ [Inhabited α] [Inhabited β] {R : α → β → Prop} {s : Shape α}
    {bs : List β} (h : List.Forall₂ R s.children bs) :
    ∃ z : Shape (α × β), s = z.map Prod.fst ∧ s.refill bs = z.map Prod.snd ∧
      ∀ p ∈ z.children, R p.1 p.2 := by
  obtain ⟨z, hfst, hsnd, hchildren⟩ := exists_pairs h.length_eq.symm
  refine ⟨z, hfst, hsnd, fun p hp => ?_⟩
  rw [hchildren] at hp
  exact (List.forall₂_iff_zip.mp h).2 hp

/-- Lists that agree tree by tree have the same items. -/
theorem flatMap_eq_of_forall₂ {φ : Tree → List γ} {ts ts' : List Tree}
    (h : List.Forall₂ (fun t t' => φ t' = φ t) ts ts') : ts'.flatMap φ = ts.flatMap φ := by
  induction h with
  | nil => rfl
  | cons head _ ih => rw [List.flatMap_cons, List.flatMap_cons, head, ih]

/-- What is collected from the children is not changed by a rewriting. -/
theorem Tree.flatMap_children_withChildren {t : Tree} {cs : List Tree} {φ : Tree → List γ}
    (h : List.Forall₂ (fun t t' => φ t' = φ t) t.shape.children cs) :
    (t.withChildren cs).shape.children.flatMap φ = t.shape.children.flatMap φ := by
  rw [withChildren, shape_node, Shape.children_refill h.length_eq.symm, flatMap_eq_of_forall₂ h]

/-- New children do not change whether a shape is a class. -/
theorem Shape.isClass_refill [Inhabited β] (s : Shape α) (bs : List β) :
    (s.refill bs).isClass = s.isClass := by
  cases s with
  | classDecl _ option _ | functionExpr option _ _ => cases option <;> rfl
  | _ => rfl

theorem Tree.isClass_withChildren (t : Tree) (cs : List Tree) :
    (t.withChildren cs).shape.isClass = t.shape.isClass :=
  Shape.isClass_refill _ _

/-- The children of a rewritten tree are the new ones. -/
theorem Tree.children_withChildren {t : Tree} {cs : List Tree}
    (h : cs.length = t.shape.children.length) : (t.withChildren cs).shape.children = cs :=
  Shape.children_refill h

/-- **The expansion of `super` keeps what a collection finds in each tree,** if the collection looks
at the heritage of a class only for what is found in it. -/
theorem Expands.gather_eq {own : Option NodeId → Shape Tree → List γ}
    {atClass : ClassParts (Tree × List γ) → List γ}
    (hglue : ∀ o s, s.isGlue = true → own o s = []) (hleaf : ∀ s, own none s = [])
    (hown : ∀ o s (cs : List Tree), own o (s.refill cs) = own o s)
    (hclass : ∀ name h h' ms, h'.map Prod.snd = h.map Prod.snd →
      atClass ⟨name, h', ms⟩ = atClass ⟨name, h, ms⟩)
    {site : Site} {nested : Bool} {a a' : Account} {ts ts' : List Tree}
    (h : Expands site nested a ts ts' a') :
    List.Forall₂ (fun t t' => Tree.gather own atClass t' = Tree.gather own atClass t) ts ts' := by
  have hadd : Tree.Additive (fun _ => True) (Tree.gather own atClass) :=
    Tree.additive_gather hglue hleaf
  have heritage {h h' : Option Tree}
      (hh : List.Forall₂ (fun t t' => Tree.gather own atClass t' = Tree.gather own atClass t)
        h.toList h'.toList) :
      (h'.map fun c => (c, Tree.gather own atClass c)).map Prod.snd
        = (h.map fun c => (c, Tree.gather own atClass c)).map Prod.snd := by
    cases h <;> cases h' <;> simp_all
  refine h.forall₂' ⟨fun _ => rfl, ?walk, ?classDecl, ?classExpr, ?use⟩
  case walk =>
    intro t cs hclass hcs
    have hclass' : (t.withChildren cs).shape.isClass = false := by
      rwa [Tree.withChildren, Tree.shape_node, Shape.isClass_refill]
    rw [Tree.gather_of_not_isClass hclass, Tree.gather_of_not_isClass hclass',
      Tree.flatMap_children_withChildren hcs]
    simp [Tree.withChildren, hown]
  case classDecl =>
    intro o name h h' ms r hh
    rw [Tree.gather_node, Tree.gather_node]
    exact hclass _ _ _ _ (heritage hh)
  case classExpr =>
    intro o name h h' ms r hh
    rw [Tree.gather_node, Tree.gather_node]
    exact hclass _ _ _ _ (heritage hh)
  case use =>
    intro t t' use operands role hoperands emits
    rw [emits.eq_flatMap hadd, Tree.flatMap_operands hadd.glue role,
      flatMap_eq_of_forall₂ hoperands]

/-- Expansion makes and removes no faults. -/
theorem Expands.faults_eq {site : Site} {nested : Bool} {a a' : Account} {ts ts' : List Tree}
    (h : Expands site nested a ts ts' a') : ts'.flatMap Tree.faults = ts.flatMap Tree.faults := by
  refine flatMap_eq_of_forall₂ (h.gather_eq (fun _ _ _ => rfl) (fun _ => rfl) (fun _ _ _ => rfl) ?_)
  intro name h h' ms hh
  cases h <;> cases h' <;> simp_all

/-- Expansion leaves the nesting of classes as it is. -/
theorem Expands.classDepths_eq {site : Site} {nested : Bool} {a a' : Account} {ts ts' : List Tree}
    (h : Expands site nested a ts ts' a') :
    ts'.flatMap Tree.classDepths = ts.flatMap Tree.classDepths := by
  refine flatMap_eq_of_forall₂ (h.gather_eq (fun _ _ _ => rfl) (fun _ => rfl) (fun _ _ _ => rfl) ?_)
  intro name h h' ms hh
  cases h <;> cases h' <;> simp_all

end Declass
