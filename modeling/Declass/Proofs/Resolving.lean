import Declass.Proofs.Lowering
import Declass.Proofs.Scoping

/-!
# Names in lowered code

Lowering adds uses of names to a program: of the namespace of the helpers, of classes, of
temporaries, and of the parameter of a default constructor. It adds declarations too, of temporaries
and of classes. This module shows that the two match. Every name that is used by generated code is
bound where it is used, save the namespace of the helpers; and the uses of names in the program are
bound after the lowering where they were bound before.

What becomes of names is a relation between the effects of two trees on the scopes around them. The
effects of the parts of a tree are put together in the same way on both sides, so the relation need
be looked at only where the lowering does something.

## Main definitions

* `IsTemp` — the names of temporaries
* `Effect.Renders`, `Tree.Renders` — what becomes of the names in a tree
* `Account.Gains` — the temporaries that come to be held

## Main results

* `Tree.Renders.node`, `Tree.Renders.declaring` — constructs with other children, and with
  temporaries declared in them
* `Expands.renders`, `Lowers.renders` — names in expanded and in lowered code
* `Lowers.renders_program` — names in a lowered program
-/

namespace Declass

/-- The name is that of a temporary. -/
def IsTemp (name : String) : Prop :=
  ∃ number, name = Temps.name number

/-- The names of temporaries begin alike. -/
theorem IsTemp.take_toList {name : String} (h : IsTemp name) :
    name.toList.take 3 = ['$', '_', '_'] := by
  obtain ⟨number, rfl⟩ := h
  simp [Temps.name, String.toList_append]

/-! ### Effects -/

namespace Effect

variable {names names' : String → Prop} {e e' e'' e₁ e₁' e₂ e₂' : Effect}

/-- What may become of names. More temporaries may be declared. The uses of other names in the text
stay, and uses that are new are generated; they are of `names`, or bound as `var` does. -/
structure Renders (names : String → Prop) (e e' : Effect) : Prop where
  vars_subset : e.vars ⊆ e'.vars
  vars_new : ∀ name ∈ e'.vars, name ∈ e.vars ∨ IsTemp name
  locals_eq : e'.locals = e.locals
  uses_kept : ∀ use ∈ e.uses, use.range.isSome ∧ ¬ IsTemp use.name → use ∈ e'.uses
  uses_new : ∀ use ∈ e'.uses,
    use ∈ e.uses ∨ use.range = none ∧ (names use.name ∨ use.name ∈ e'.vars)

namespace Renders

theorem refl (names : String → Prop) (e : Effect) : Renders names e e :=
  ⟨Finset.Subset.refl _, fun _ => .inl, rfl, fun _ h _ => h, fun _ => .inl⟩

theorem trans (h₁ : Renders names e e') (h₂ : Renders names e' e'') : Renders names e e'' where
  vars_subset := h₁.vars_subset.trans h₂.vars_subset
  vars_new name hn := by
    rcases h₂.vars_new name hn with hn | hn
    · exact h₁.vars_new name hn
    · exact .inr hn
  locals_eq := h₂.locals_eq.trans h₁.locals_eq
  uses_kept use hu ht := h₂.uses_kept use (h₁.uses_kept use hu ht) ht
  uses_new use hu := by
    rcases h₂.uses_new use hu with hu | hu
    · rcases h₁.uses_new use hu with hu | ⟨hr, hn | hn⟩
      · exact .inl hu
      · exact .inr ⟨hr, .inl hn⟩
      · exact .inr ⟨hr, .inr (h₂.vars_subset hn)⟩
    · exact .inr hu

/-- Names that are bound as `var` does need not be allowed for. -/
theorem strengthen (h : Renders names' e e')
    (hnames : ∀ name, names' name → names name ∨ name ∈ e'.vars) : Renders names e e' :=
  { h with
    uses_new := fun use hu => by
      rcases h.uses_new use hu with hu | ⟨hr, hn | hn⟩
      · exact .inl hu
      · exact .inr ⟨hr, hnames _ hn⟩
      · exact .inr ⟨hr, .inr hn⟩ }

theorem andThen (h₁ : Renders names e₁ e₁') (h₂ : Renders names e₂ e₂') :
    Renders names (e₁.andThen e₂) (e₁'.andThen e₂') where
  vars_subset := Finset.union_subset_union h₁.vars_subset h₂.vars_subset
  vars_new name hn := by
    rcases Finset.mem_union.mp hn with hn | hn
    · exact (h₁.vars_new name hn).imp_left fun hn => Finset.mem_union_left _ hn
    · exact (h₂.vars_new name hn).imp_left fun hn => Finset.mem_union_right _ hn
  locals_eq := by rw [Effect.andThen, Effect.andThen, h₁.locals_eq, h₂.locals_eq]
  uses_kept use hu ht := by
    rcases List.mem_append.mp hu with hu | hu
    · exact List.mem_append_left _ (h₁.uses_kept use hu ht)
    · exact List.mem_append_right _ (h₂.uses_kept use hu ht)
  uses_new use hu := by
    rcases List.mem_append.mp hu with hu | hu
    · rcases h₁.uses_new use hu with hu | ⟨hr, hn⟩
      · exact .inl (List.mem_append_left _ hu)
      · exact .inr ⟨hr, hn.imp_right fun hn => Finset.mem_union_left _ hn⟩
    · rcases h₂.uses_new use hu with hu | ⟨hr, hn⟩
      · exact .inl (List.mem_append_right _ hu)
      · exact .inr ⟨hr, hn.imp_right fun hn => Finset.mem_union_right _ hn⟩

/-- The order of effects does not matter. -/
theorem swap (h : Renders names e (e₁.andThen e₂)) : Renders names e (e₂.andThen e₁) := by
  have hvars : e₂.vars ∪ e₁.vars = e₁.vars ∪ e₂.vars := Finset.union_comm _ _
  have huses (use : Reference) : use ∈ e₂.uses ++ e₁.uses ↔ use ∈ e₁.uses ++ e₂.uses := by
    rw [List.mem_append, List.mem_append, or_comm]
  refine ⟨?_, ?_, ?_, ?_, ?_⟩
  · rw [Effect.andThen, hvars]
    exact h.vars_subset
  · rw [Effect.andThen, hvars]
    exact h.vars_new
  · exact (Finset.union_comm _ _).trans h.locals_eq
  · exact fun use hu ht => (huses use).mpr (h.uses_kept use hu ht)
  · rw [Effect.andThen, hvars]
    exact fun use hu => h.uses_new use ((huses use).mp hu)

/-- Code with a use of a name put in front. -/
theorem generate (h : Renders names e e') {name : String} (hname : names name) :
    Renders names e (Effect.andThen { uses := [⟨name, none⟩] } e') where
  vars_subset := by simpa [Effect.andThen] using h.vars_subset
  vars_new := by simpa [Effect.andThen] using h.vars_new
  locals_eq := by simpa [Effect.andThen] using h.locals_eq
  uses_kept use hu ht := List.mem_cons_of_mem _ (h.uses_kept use hu ht)
  uses_new use hu := by
    rcases List.mem_cons.mp hu with rfl | hu
    · exact .inr ⟨rfl, .inl hname⟩
    · simpa [Effect.andThen] using h.uses_new use hu

/-- Code with temporaries declared in front, which then need not be allowed for. -/
theorem declare (h : Renders names' e e') {temps : Finset String}
    (htemps : ∀ name ∈ temps, IsTemp name)
    (hnames : ∀ name, names' name → names name ∨ name ∈ temps) :
    Renders names e (Effect.andThen { vars := temps } e') := by
  have hdeclared : Renders names' e (Effect.andThen { vars := temps } e') := by
    refine ⟨h.vars_subset.trans Finset.subset_union_right,
      fun name hn => ?_, ?_, ?_, fun use hu => ?_⟩
    · rcases Finset.mem_union.mp hn with hn | hn
      · exact .inr (htemps name hn)
      · exact h.vars_new name hn
    · simpa [Effect.andThen] using h.locals_eq
    · simpa [Effect.andThen] using h.uses_kept
    · exact (h.uses_new use (by simpa [Effect.andThen] using hu)).imp_right fun hnew =>
        hnew.imp_right fun hn => hn.imp_right fun hn => Finset.mem_union_right _ hn
  exact hdeclared.strengthen fun name hn =>
    (hnames name hn).imp_right fun hn => Finset.mem_union_left _ hn

/-- A scope with other code in it. -/
theorem closing (h : Renders names e e') (keepsVars : Bool) :
    Renders names (e.closing keepsVars) (e'.closing keepsVars) := by
  have hkept {use : Reference} (hu : use ∈ e.uses) (ht : use.range.isSome ∧ ¬ IsTemp use.name)
      (hl : use.name ∉ e.locals) : use ∈ e'.uses ∧ use.name ∉ e'.locals :=
    ⟨h.uses_kept use hu ht, h.locals_eq ▸ hl⟩
  cases keepsVars with
  | true =>
    refine ⟨Finset.Subset.refl _, fun _ => .inl, rfl, fun use hu ht => ?_, fun use hu => ?_⟩
    · simp only [Effect.closing, if_true, List.mem_filter, decide_eq_true_eq, Finset.mem_union,
        not_or] at hu ⊢
      obtain ⟨hu', hl⟩ := hkept hu.1 ht hu.2.1
      refine ⟨hu', hl, fun hv => ?_⟩
      exact (h.vars_new _ hv).elim hu.2.2 ht.2
    · simp only [Effect.closing, if_true, List.mem_filter, decide_eq_true_eq, Finset.mem_union,
        not_or] at hu ⊢
      obtain ⟨hu, hl, hv⟩ := hu
      rcases h.uses_new use hu with hu | ⟨hr, hn | hn⟩
      · exact .inl ⟨hu, h.locals_eq ▸ hl, fun hv' => hv (h.vars_subset hv')⟩
      · exact .inr ⟨hr, .inl hn⟩
      · exact absurd hn hv
  | false =>
    refine ⟨h.vars_subset, h.vars_new, rfl, fun use hu ht => ?_, fun use hu => ?_⟩
    · simp only [Effect.closing, Bool.false_eq_true, if_false, List.mem_filter, decide_eq_true_eq]
        at hu ⊢
      exact hkept hu.1 ht hu.2
    · simp only [Effect.closing, Bool.false_eq_true, if_false, List.mem_filter, decide_eq_true_eq]
        at hu ⊢
      exact (h.uses_new use hu.1).imp_left fun hu' => ⟨hu', h.locals_eq ▸ hu.2⟩

end Renders

end Effect

/-! ### Trees -/

/-- What may become of the names in a tree. -/
structure Tree.Renders (names : String → Prop) (t t' : Tree) : Prop where
  name?_eq : t'.name? = t.name?
  effect : t.effect.Renders names t'.effect

theorem InnerScope.inside_eq (scope : InnerScope Tree) :
    scope.inside = Effect.andThen
      { locals := (scope.names.filterMap Tree.name? ++ scope.words).toFinset }
      (Tree.effects scope.parts) := by
  simp [inside, Tree.effects, Effect.andThen]

namespace Tree.Renders

variable {names names' : String → Prop} {t t' t'' : Tree} {ts ts' : List Tree}

theorem refl (names : String → Prop) (t : Tree) : Renders names t t :=
  ⟨rfl, .refl names _⟩

theorem trans (h₁ : Renders names t t') (h₂ : Renders names t' t'') : Renders names t t'' :=
  ⟨h₂.name?_eq.trans h₁.name?_eq, h₁.effect.trans h₂.effect⟩

theorem mono (h : Renders names' t t') (hnames : ∀ name, names' name → names name) :
    Renders names t t' :=
  ⟨h.name?_eq, h.effect.strengthen fun name hn => .inl (hnames name hn)⟩

theorem effects (h : List.Forall₂ (Renders names) ts ts') :
    (Tree.effects ts).Renders names (Tree.effects ts') := by
  induction h with
  | nil => exact .refl _ _
  | cons head _ ih =>
    rw [effects_cons, effects_cons]
    exact head.effect.andThen ih

section Pairs

variable {z : Shape (Tree × Tree)} (h : ∀ p ∈ z.children, Renders names p.1 p.2)

include h

theorem filterMap_eq {ps : List (Tree × Tree)} (hps : ∀ p ∈ ps, p ∈ z.children) :
    (ps.map Prod.snd).filterMap name? = (ps.map Prod.fst).filterMap name? := by
  rw [List.filterMap_map, List.filterMap_map]
  exact List.filterMap_congr fun p hp => (h p (hps p hp)).name?_eq

theorem effects_map {ps : List (Tree × Tree)} (hps : ∀ p ∈ ps, p ∈ z.children) :
    (Tree.effects (ps.map Prod.fst)).Renders names (Tree.effects (ps.map Prod.snd)) := by
  refine effects (List.forall₂_map_left_iff.mpr (List.forall₂_map_right_iff.mpr ?_))
  exact List.forall₂_same.mpr fun p hp => h p (hps p hp)

theorem inside {scope : InnerScope (Tree × Tree)} (hscope : z.scopeRule.inner = some scope) :
    (scope.map Prod.fst).inside.Renders names (scope.map Prod.snd).inside := by
  have hnames : (scope.names.map Prod.snd).filterMap name? =
      (scope.names.map Prod.fst).filterMap name? :=
    filterMap_eq h fun p hp => Shape.mem_children_of_mem_binders (by
      simp [ScopeRule.binders, hscope, hp])
  rw [InnerScope.inside_eq, InnerScope.inside_eq, InnerScope.map, InnerScope.map, hnames]
  exact (Effect.Renders.refl _ _).andThen
    (effects_map h fun p hp => Shape.mem_children_of_mem_inner hscope hp)

/-- **A construct with other children.** -/
theorem node (o o' : Option NodeId) (r : Option Range) :
    Renders names (.node o (z.map Prod.fst) r) (.node o' (z.map Prod.snd) r) := by
  refine ⟨by cases z <;> rfl, ?_⟩
  have hbinder (p : Tree × Tree) (hp : p ∈ z.scopeRule.hoisted ++ z.scopeRule.declared) :
      p ∈ z.children :=
    Shape.mem_children_of_mem_binders (List.mem_append_left _ hp)
  have hhoisted := filterMap_eq h fun p hp => hbinder p (List.mem_append_left _ hp)
  have hdeclared := filterMap_eq h fun p hp => hbinder p (List.mem_append_right _ hp)
  rw [effect_node, effect_node, Shape.scopeRule_map, Shape.scopeRule_map, Shape.use?_map,
    Shape.use?_map]
  simp only [ScopeRule.map, hhoisted, hdeclared]
  refine (Effect.Renders.refl _ _).andThen ((effects_map h fun p hp =>
    Shape.mem_children_of_mem_parts hp).andThen ?_)
  cases hscope : z.scopeRule.inner with
  | none => exact .refl _ _
  | some scope =>
    simp only [Option.map_some, Option.getD_some, ← InnerScope.closing_inside]
    exact (inside h hscope).closing scope.keepsVars

end Pairs

/-- What is rendered in the parts is rendered in the construct. -/
theorem withChildren {cs : List Tree} (h : List.Forall₂ (Renders names) t.shape.children cs) :
    Renders names t (t.withChildren cs) := by
  obtain ⟨z, hfst, hsnd, hz⟩ := Shape.exists_pairs_of_forall₂ h
  have hnode := node hz t.origin t.origin t.range
  rwa [← hfst, ← hsnd, node_eta] at hnode

end Tree.Renders

/-! ### Declarations of temporaries -/

namespace Tree

/-- The names of temporaries. -/
def tempNames (temps : List Nat) : Finset String :=
  (temps.map Temps.name).toFinset

theorem name_mem_tempNames {temps : List Nat} {number : Nat} (h : number ∈ temps) :
    Temps.name number ∈ tempNames temps :=
  List.mem_toFinset.mpr (List.mem_map_of_mem h)

theorem isTemp_of_mem_tempNames {temps : List Nat} {name : String} (h : name ∈ tempNames temps) :
    IsTemp name := by
  obtain ⟨number, -, rfl⟩ := List.mem_map.mp (List.mem_toFinset.mp h)
  exact ⟨number, rfl⟩

theorem effect_declareTemps (temps : List Nat) :
    (declareTemps temps).effect = { vars := tempNames temps } := by
  have hdeclarators : effects (temps.map fun number =>
      gen (.declarator (gen (.binding (Temps.name number))) none)) =
        { vars := tempNames temps } := by
    induction temps with
    | nil => rfl
    | cons number temps ih =>
      rw [List.map_cons, effects_cons, ih, gen, effect_node]
      simp [Shape.scopeRule, Shape.use?, gen, name?, Effect.andThen, tempNames]
  rw [declareTemps, gen, effect_node]
  simp [Shape.scopeRule, Shape.children, Shape.use?, hdeclarators]

theorem effect_prepend (declaration body : Tree) :
    (prepend declaration body).effect = declaration.effect.andThen body.effect := by
  have hstatements : effects body.statements = body.effect := by
    rw [statements]
    split
    · rename_i hblock
      rw [← body.node_eta, hblock, effect_node]
      simp [Shape.scopeRule, Shape.children, Shape.use?]
    · rw [effects_singleton, effect_node]
      simp [Shape.scopeRule, Shape.children, Shape.use?]
  rw [prepend, effect_node]
  simp [Shape.scopeRule, Shape.children, Shape.use?, effects_cons, hstatements]

end Tree

/-- Temporaries that are declared at the top of the last part of a scope are declared in the
scope. -/
theorem InnerScope.inside_prepend (keepsVars : Bool) (names : List Tree) (words : List String)
    (parts : List Tree) (body : Tree) (temps : List Nat) :
    (InnerScope.mk keepsVars names words
      (parts ++ [.prepend (.declareTemps temps) body])).inside =
      Effect.andThen { vars := Tree.tempNames temps }
        (InnerScope.mk keepsVars names words (parts ++ [body])).inside := by
  simp [inside_eq, Tree.effects_append, Tree.effect_prepend, Tree.effect_declareTemps,
    Effect.andThen, Finset.union_left_comm]

/-- A function has one scope, and its body is the last part of it. -/
theorem Shape.scopeRule_of_isFunctionLike {α : Type} {s : Shape α} (h : s.isFunctionLike = true) :
    ∃ hoisted names words parts body,
      ∀ f : α → α, (s.mapBody f).scopeRule = {
        hoisted
        inner := some { keepsVars := true, names, words, parts := parts ++ [f body] } } := by
  cases s with
  | functionDecl name parameters body =>
    exact ⟨[name], [name], ["arguments"], parameters, body, fun _ => rfl⟩
  | functionExpr name parameters body =>
    exact ⟨[], name.toList, ["arguments"], parameters, body, fun _ => rfl⟩
  | arrow parameters body | method name parameters body =>
    exact ⟨[], [], ["arguments"], parameters, body, fun _ => rfl⟩
  | getter name body => exact ⟨[], [], [], [], body, fun _ => rfl⟩
  | setter name incoming body => exact ⟨[], [], [], [incoming], body, fun _ => rfl⟩
  | _ => cases h

/-- The effect of a construct that is a scope. -/
theorem Tree.effect_of_scopeRule {s : Shape Tree} {hoisted : List Tree} {scope : InnerScope Tree}
    (h : s.scopeRule = { hoisted, inner := some scope }) (o : Option NodeId) (r : Option Range) :
    effect (.node o s r) = Effect.andThen { vars := (hoisted.filterMap name?).toFinset }
      (scope.inside.closing scope.keepsVars) := by
  have huse : s.use? r = none := by
    cases s with
    | identifier => cases h
    | _ => rfl
  rw [effect_node, h, huse, InnerScope.closing_inside]
  simp

theorem Shape.mapBody_id {α : Type} (s : Shape α) : s.mapBody id = s := by
  cases s <;> rfl

theorem Shape.map_mapBody {α β : Type} {f : α → α} {g : β → β} {k : α → β}
    (h : ∀ a, k (f a) = g (k a)) (s : Shape α) : (s.mapBody f).map k = (s.map k).mapBody g := by
  cases s <;> simp [mapBody, Shape.map, h]

namespace Tree.Renders

variable {names names' : String → Prop} {t : Tree}

/-- A function with other children, and with temporaries declared in it. -/
theorem mapBody {z : Shape (Tree × Tree)} (h : ∀ p ∈ z.children, Renders names' p.1 p.2)
    (hfunction : z.isFunctionLike = true) {temps : List Nat}
    (hnames : ∀ name, names' name → names name ∨ name ∈ tempNames temps)
    (o o' : Option NodeId) (r : Option Range) :
    Renders names (.node o (z.map Prod.fst) r)
      (.node o' ((z.map Prod.snd).mapBody (prepend (declareTemps temps))) r) := by
  let g (p : Tree × Tree) : Tree × Tree := (p.1, prepend (declareTemps temps) p.2)
  obtain ⟨hoisted, binders, words, parts, body, hrule⟩ :=
    Shape.scopeRule_of_isFunctionLike hfunction
  have hrule₀ := z.mapBody_id ▸ hrule id
  have hhoisted : (hoisted.map Prod.snd).filterMap name? = (hoisted.map Prod.fst).filterMap name? :=
    filterMap_eq h fun p hp => Shape.mem_children_of_mem_binders
      (by simp [ScopeRule.binders, hrule₀, hp])
  have hinside := inside h (by rw [hrule₀])
  -- The declarations come first in the body, which is the same as first in the scope.
  have hprepend : (InnerScope.map Prod.snd ⟨true, binders, words, parts ++ [g body]⟩).inside =
      Effect.andThen { vars := tempNames temps }
        (InnerScope.map Prod.snd ⟨true, binders, words, parts ++ [body]⟩).inside := by
    simpa [InnerScope.map, g] using
      InnerScope.inside_prepend true (binders.map Prod.snd) words (parts.map Prod.snd) body.2 temps
  have hdeclared := (hinside.declare (fun _ => isTemp_of_mem_tempNames) hnames).closing true
  have hg (p : Tree × Tree) : (g p).2 = prepend (declareTemps temps) p.2 := rfl
  have hshape := Shape.map_mapBody hg z
  refine ⟨by cases z <;> rfl, ?_⟩
  rw [← hshape, effect_of_scopeRule (by rw [Shape.scopeRule_map, hrule₀]; rfl),
    effect_of_scopeRule (by rw [Shape.scopeRule_map, hrule g]; rfl), hhoisted, hprepend]
  exact (Effect.Renders.refl _ _).andThen hdeclared

/-- **A program or a function with other children, and with temporaries declared in it.** -/
theorem declaring {cs : List Tree} (h : List.Forall₂ (Renders names') t.shape.children cs)
    (owner : t.shape.ownsTemps = true) {temps : List Nat}
    (hnames : ∀ name, names' name → names name ∨ name ∈ tempNames temps) :
    Renders names t ((t.withChildren cs).declaring temps) := by
  rw [Tree.declaring]
  split
  case isTrue htemps =>
    subst htemps
    exact (withChildren h).mono fun name hn => (hnames name hn).resolve_right (by simp [tempNames])
  case isFalse =>
    obtain ⟨o, s, r⟩ := t
    obtain ⟨z, rfl : s = _, hsnd, hz⟩ := Shape.exists_pairs_of_forall₂ h
    rw [Tree.withChildren, shape_node, range_node, hsnd]
    cases z with
    | program statements =>
      have hstatements := (effects_map hz fun p hp => hp).declare
        (fun _ => isTemp_of_mem_tempNames) hnames
      refine ⟨rfl, ?_⟩
      simpa [effect_node, Shape.map, Shape.declaring, Shape.scopeRule, Shape.children, Shape.use?,
        effects_cons, effect_declareTemps] using hstatements
    | functionDecl | functionExpr | arrow | method | getter | setter =>
      exact mapBody hz rfl hnames _ _ _
    | _ => cases owner

end Tree.Renders

/-! ### Classes -/

namespace Tree

theorem effect_classDecl {name : Tree} {c : String} (hname : name.name? = some c)
    (o : Option NodeId) (heritage : Option Tree) (members : List Tree) (r : Option Range) :
    effect (.node o (.classDecl name heritage members) r) =
      Effect.andThen { vars := {c} } ((effects heritage.toList).andThen (effects members)) := by
  rw [effect_node]
  simp [Shape.scopeRule, Shape.use?, hname, effects_append]

theorem effect_classExpr (o : Option NodeId) (name heritage : Option Tree) (members : List Tree)
    (r : Option Range) :
    effect (.node o (.classExpr name heritage members) r) =
      (effects heritage.toList).andThen (effects members) := by
  rw [effect_node]
  simp [Shape.scopeRule, Shape.use?, effects_append]

/-- The parameter of a default constructor is bound where it is used. -/
theorem effects_withConstructor (members : List Tree) (hasBase : Bool) :
    effects (withConstructor members hasBase) = effects members := by
  have hconstructor : (defaultConstructor hasBase).effect = {} := by
    obtain ⟨hvars, hlocals, hfree⟩ : (defaultConstructor hasBase).vars = [] ∧
        (defaultConstructor hasBase).locals = [] ∧ (defaultConstructor hasBase).free = [] := by
      cases hasBase <;> decide +kernel
    simp [effect, hvars, hlocals, hfree]
  rw [withConstructor]
  split
  · rfl
  · rw [effects_append, effects_singleton, hconstructor, Effect.andThen_empty]

theorem effect_createClass (options : Options) (properties : List Tree) (hasConstructor : Bool)
    (base : Option Tree) (r : Option Range) :
    effect (createClass options properties hasConstructor base r) =
      Effect.andThen { uses := [⟨options.runtimeName, none⟩] }
        ((effects properties).andThen (effects base.toList)) := by
  cases base <;>
    simp [createClass, helper, ident, boolean, gen, effect_node, Shape.scopeRule, Shape.use?,
      Shape.children, effects_cons]

theorem effect_declareClass {name : Tree} {c : String} (hname : name.name? = some c)
    (options : Options) (call : Tree) (r : Option Range) :
    effect (declareClass options name call r) = Effect.andThen { vars := {c} } call.effect := by
  simp [declareClass, effect_node, Shape.scopeRule, Shape.use?, Shape.children, hname]

theorem effect_assignTemp (number : Nat) (value : Tree) (r : Option Range) :
    effect (.node none (.paren (.assign (.temp number) value)) r) =
      Effect.andThen { uses := [⟨Temps.name number, none⟩] } value.effect := by
  simp [assign, temp, ident, gen, effect_node, Shape.scopeRule, Shape.use?, Shape.children,
    effects_cons]

/-- A constructor has the same effect as a property. -/
theorem Renders.asProperty {names : String → Prop} {t t' : Tree} (h : Renders names t t')
    {kind : MemberKind} (hkind : MemberKind.ofShape? t'.shape = some kind) :
    Renders names t (t'.asProperty kind) := by
  rw [Tree.asProperty]
  split
  · rename_i hconstructor
    obtain ⟨o, s, r⟩ := t'
    obtain ⟨name, parameters, body, rfl : s = _⟩ := isConstructor_of_ofShape? (hconstructor ▸ hkind)
    refine ⟨h.name?_eq, ?_⟩
    have heffect := h.effect
    rw [effect_node] at heffect
    simpa [constructorProperty, effect_node, Shape.scopeRule,
      Shape.use?, Shape.children] using heffect
  · exact h

end Tree

/-! ### Expansion of `super` -/

/-- Glue binds nothing and uses no name. -/
theorem Shape.scopeRule_of_isGlue {α : Type} {s : Shape α} (h : s.isGlue = true) :
    s.scopeRule = { parts := s.children } ∧ ∀ r, s.use? r = none := by
  cases s with
  | call | binary | unary | member | lookup | superExpr | array | paren | comma =>
    exact ⟨rfl, fun _ => rfl⟩
  | _ => cases h

namespace Tree

open scoped Classical in
/-- The free uses of a tree, save generated ones of `names`. -/
noncomputable def freeBut (names : String → Prop) (t : Tree) : List Reference :=
  t.free.filter fun use => ¬ (use.range = none ∧ names use.name)

variable {names : String → Prop} {t : Tree} {ts : List Tree}

theorem mem_freeBut {use : Reference} :
    use ∈ t.freeBut names ↔ use ∈ t.free ∧ ¬ (use.range = none ∧ names use.name) := by
  simp [freeBut]

theorem vars_of_isGlue (h : t.shape.isGlue = true) : t.vars = t.shape.children.flatMap vars := by
  rw [← node_eta t, vars_node, shape_node, (Shape.scopeRule_of_isGlue h).1]
  simp

theorem locals_of_isGlue (h : t.shape.isGlue = true) :
    t.locals = t.shape.children.flatMap locals := by
  rw [← node_eta t, locals_node, shape_node, (Shape.scopeRule_of_isGlue h).1]
  simp

theorem free_of_isGlue (h : t.shape.isGlue = true) : t.free = t.shape.children.flatMap free := by
  rw [← node_eta t, free_node, shape_node, (Shape.scopeRule_of_isGlue h).1,
    (Shape.scopeRule_of_isGlue h).2]
  simp

theorem vars_literal (value : Literal) : vars (gen (.literal value)) = [] := by
  rw [gen, vars_node]
  rfl

theorem locals_literal (value : Literal) : locals (gen (.literal value)) = [] := by
  rw [gen, locals_node]
  rfl

theorem free_literal (value : Literal) : free (gen (.literal value)) = [] := by
  rw [gen, free_node]
  rfl

theorem additive_vars : Additive names vars where
  glue _ := vars_of_isGlue
  ident _ _ := by rw [ident, gen, vars_node]; rfl
  this := by rw [gen, vars_node]; rfl
  literal := vars_literal

theorem additive_locals : Additive names locals where
  glue _ := locals_of_isGlue
  ident _ _ := by rw [ident, gen, locals_node]; rfl
  this := by rw [gen, locals_node]; rfl
  literal := locals_literal

theorem additive_freeBut : Additive names (freeBut names) where
  glue t ht := by
    rw [freeBut, free_of_isGlue ht, List.filter_flatMap]
    rfl
  ident name hname := by
    have hfree : (ident name).free = [⟨name, none⟩] := by rw [ident, gen, free_node]; rfl
    simp [freeBut, hfree, hname]
  this := by
    have hfree : (gen .thisExpr).free = [] := by rw [gen, free_node]; rfl
    simp [freeBut, hfree]
  literal value := by simp [freeBut, free_literal]

/-- Generated code uses, beside the names that it may use, those that its operands use. -/
theorem Emits.renders {operands : List Tree} (h : Emits names operands t) :
    (effects operands).Renders names t.effect := by
  have hvars : (effects operands).vars = t.effect.vars := by
    rw [effects, effect, h.eq_flatMap additive_vars]
  have hlocals : (effects operands).locals = t.effect.locals := by
    rw [effects, effect, h.eq_flatMap additive_locals]
  have hfree (use : Reference) (hu : ¬ (use.range = none ∧ names use.name)) :
      use ∈ (effects operands).uses ↔ use ∈ t.effect.uses := by
    have hmem : use ∈ t.freeBut names ↔ use ∈ operands.flatMap (freeBut names) := by
      rw [h.eq_flatMap additive_freeBut]
    simpa [mem_freeBut, hu, effects, effect] using hmem.symm
  refine ⟨hvars.subset, fun name hn => .inl (hvars ▸ hn), hlocals.symm, fun use hu ht => ?_,
    fun use hu => ?_⟩
  · refine (hfree use ?_).mp hu
    rintro ⟨hr, -⟩
    simp [hr] at ht
  · by_cases hgen : use.range = none ∧ names use.name
    · exact .inr ⟨hgen.1, .inl hgen.2⟩
    · exact .inl ((hfree use hgen).mpr hu)

theorem effect_of_superRole {use : SuperUse Tree} (h : t.superRole = .use use) :
    t.effect = effects use.operands := by
  rw [effect, effects, flatMap_operands (fun _ => vars_of_isGlue) h,
    flatMap_operands (fun _ => locals_of_isGlue) h, flatMap_operands (fun _ => free_of_isGlue) h]

/-- Every step of an expansion is rendered. -/
theorem compatible_renders : Expands.Compatible names (Renders names) where
  refl := .refl names
  walk _ _ _ h := .withChildren h
  classDecl o name h h' ms r heritage := by
    refine ⟨rfl, ?_⟩
    rw [effect_node, effect_node]
    simp only [Shape.scopeRule, Shape.use?, effects_append]
    exact (Effect.Renders.refl _ _).andThen
      (((Renders.effects heritage).andThen (.refl _ _)).andThen (.refl _ _))
  classExpr o name h h' ms r heritage := by
    refine ⟨rfl, ?_⟩
    rw [effect_classExpr, effect_classExpr]
    exact (Renders.effects heritage).andThen (.refl _ _)
  use {t t' use operands} role h emits := by
    refine ⟨?_, ?_⟩
    · rw [name?_of_isGlue emits.isGlue, name?_of_superRole role]
    · rw [effect_of_superRole role]
      exact (Renders.effects h).trans emits.renders

end Tree

/-! ### Temporaries that are held -/

namespace Account

variable {a a₁ a' : Account} {number : Nat} {new new' : List Nat}

/-- From one account to another, the innermost scope of temporaries comes to hold those that are
new. -/
def Gains (a a' : Account) (new : List Nat) : Prop :=
  ∃ held held' rest, a.temps.scopes = held :: rest ∧ a'.temps.scopes = held' :: rest ∧
    held'.Perm (held ++ new)

namespace Gains

theorem of_scopes_eq (h : a.temps.scopes ≠ []) (heq : a'.temps.scopes = a.temps.scopes) :
    a.Gains a' [] := by
  obtain ⟨held, rest, hscopes⟩ := List.exists_cons_of_ne_nil h
  exact ⟨held, held, rest, hscopes, heq.trans hscopes, by simp⟩

theorem trans (h₁ : a.Gains a₁ new) (h₂ : a₁.Gains a' new') : a.Gains a' (new ++ new') := by
  obtain ⟨held, held₁, rest, hscopes, hscopes₁, hperm₁⟩ := h₁
  obtain ⟨held₁', held', rest', hscopes₁', hscopes', hperm'⟩ := h₂
  obtain ⟨rfl, rfl⟩ := List.cons.inj (hscopes₁.symm.trans hscopes₁')
  refine ⟨held, held', rest, hscopes, hscopes', hperm'.trans ?_⟩
  rw [← List.append_assoc]
  exact hperm₁.append_right new'

/-- A part of a run that gains numbers ends in an open scope. -/
theorem scopes_ne_nil (h : a.Gains a' new) : a'.temps.scopes ≠ [] := by
  obtain ⟨held, held', rest, -, hscopes', -⟩ := h
  simp [hscopes']

theorem allocate (h : a.temps.scopes ≠ []) : a.Gains a.allocate [a.fresh] := by
  obtain ⟨held, rest, hscopes⟩ := List.exists_cons_of_ne_nil h
  refine ⟨held, held ++ [a.fresh], rest, hscopes, ?_, .refl _⟩
  simp only [Account.allocate, fresh, Temps.allocate]
  split <;> simp [hscopes, Temps.hold]

theorem release (h : a.Gains a' (number :: new)) : a.Gains (a'.release number) new := by
  obtain ⟨held, held', rest, hscopes, hscopes', hperm⟩ := h
  have hperm' : held'.Perm (number :: (held ++ new)) := hperm.trans List.perm_middle
  have hmem : number ∈ held' := hperm'.mem_iff.mpr List.mem_cons_self
  refine ⟨held, held'.erase number, rest, hscopes, ?_, ?_⟩
  · simp [Account.release, Temps.release, hscopes', hmem]
  · simpa using hperm'.erase number

end Gains

/-- A part of a run gains the numbers that it keeps. -/
theorem Extends.exists_gains (h : a.Extends a') (hscopes : a.temps.scopes ≠ []) :
    ∃ new, a.Gains a' new := by
  obtain ⟨new, hscopes'⟩ := h.scopes
  obtain ⟨held, rest, hcons⟩ := List.exists_cons_of_ne_nil hscopes
  exact ⟨new, held, held ++ new, rest, hcons, by simp [hscopes', hcons], .refl _⟩

/-- What a scope holds in the end is what has been gained in it. -/
theorem Gains.mem_held_iff (h : a.openScope.Gains a' new) : number ∈ a'.held ↔ number ∈ new := by
  obtain ⟨held, held', rest, hscopes, hscopes', hperm⟩ := h
  obtain ⟨rfl, rfl⟩ := List.cons.inj hscopes
  have hheld : a'.held = held' := by simp [held, Temps.pop, hscopes']
  rw [hheld]
  exact hperm.mem_iff

/-- A closed scope leaves the scopes around it as they were. -/
theorem Gains.scopes_closeScope (h : a.openScope.Gains a' new) :
    a'.closeScope.temps.scopes = a.temps.scopes := by
  obtain ⟨held, held', rest, hscopes, hscopes', hperm⟩ := h
  obtain ⟨rfl, rfl⟩ := List.cons.inj hscopes
  simp [closeScope, Temps.pop, hscopes']

theorem Gains.holds_iff (h : a.openScope.Gains a' new) : a'.Holds number ↔ number ∈ new := by
  obtain ⟨held, held', rest, hscopes, hscopes', hperm⟩ := h
  obtain ⟨rfl, rfl⟩ := List.cons.inj hscopes
  rw [Holds, hscopes']
  simpa using hperm.mem_iff

end Account

/-! ### Lowering -/

/-- Lowering code does not touch what is known of the class around it. Lowering a member does not
forget that `super` was used. -/
theorem Lowers.used_eq {options : Options} {c : Option String} {a a' : Account} {ts ts' : List Tree}
    (h : Lowers options c a ts ts' a') :
    (c = none → a'.used = a.used) ∧ (a.used = true → a'.used = true) := by
  induction h with
  | nil => exact ⟨fun _ => rfl, id⟩
  | cons _ _ ihHead ihTail =>
    exact ⟨fun hc => (ihTail.1 hc).trans (ihHead.1 hc), ihTail.2 ∘ ihHead.2⟩
  | walk _ _ _ ih | scope _ _ ih => exact ih
  | classDecl _ _ _ ihAbove _ | classExprBound _ _ _ ihAbove _ | classExprFree _ _ _ ihAbove _ =>
    exact ihAbove
  | member _ expanded _ ih => exact ⟨nofun, ih.2 ∘ expanded.extends.used⟩

/-- What is known of names where trees have been lowered. The names to be allowed for are the
namespace of the helpers, the temporaries that have come to be held, and the class around members if
they use `super`. -/
structure Resolves (runtime : String) (c : Option String) (a a' : Account) (ts ts' : List Tree)
    (new : List Nat) : Prop where
  gains : a.Gains a' new
  eq_nil : c ≠ none → new = []
  renders : ∀ {names : String → Prop}, names runtime → (∀ number ∈ new, names (Temps.name number)) →
    (∀ name ∈ c, a'.used = true → names name) → List.Forall₂ (Tree.Renders names) ts ts'

namespace Resolves

variable {runtime : String} {a a₁ a₂ a' : Account} {heritage base : Option Tree}
  {members properties : List Tree} {c : String} {n₁ n₂ : List Nat} {names : String → Prop}

/-- The names in a construct with temporaries of its own. -/
theorem declaring {t : Tree} {cs : List Tree} {new : List Nat} (owner : t.shape.ownsTemps = true)
    (below : Resolves runtime none a.openScope a' t.shape.children cs new)
    (hruntime : names runtime) : Tree.Renders names t ((t.withChildren cs).declaring a'.held) := by
  refine .declaring (below.renders (.inl hruntime) (fun number hnumber => ?_) nofun) owner
    fun name hname => hname
  exact .inr (Tree.name_mem_tempNames (below.gains.mem_held_iff.mpr hnumber))

/-- The names in a member, whose uses of `super` are expanded first. -/
theorem member {site : Site} {t : Tree} {cs cs' : List Tree} {new : List Nat}
    (owner : t.shape.ownsTemps = true)
    (expanded : Expands site false a.openScope t.shape.children cs a₁)
    (gains : a.openScope.Gains a₁ n₁) (below : Resolves site.runtimeName none a₁ a' cs cs' new)
    (hruntime : names site.runtimeName) (hclass : a₁.used = true → names site.className) :
    Tree.Renders names t ((t.withChildren cs').declaring a'.held) := by
  let allowed (name : String) : Prop := names name ∨ name ∈ Tree.tempNames a'.held
  have hheld (number : Nat) (hnumber : number ∈ n₁ ++ new) : allowed (Temps.name number) :=
    .inr (Tree.name_mem_tempNames ((gains.trans below.gains).mem_held_iff.mpr hnumber))
  have hexpanded : List.Forall₂ (Tree.Renders allowed) t.shape.children cs :=
    expanded.forall₂ Tree.compatible_renders (.inl hruntime) (fun h => .inl (hclass h))
      fun number h => hheld number (List.mem_append_left _ (gains.holds_iff.mp h))
  have hlowered : List.Forall₂ (Tree.Renders allowed) cs cs' :=
    below.renders (.inl hruntime) (fun number h => hheld number (List.mem_append_right _ h)) nofun
  exact .declaring (forall₂_comp .trans hexpanded hlowered) owner fun _ hname => hname

/-- The code of a class has the names of its heritage and of its members. -/
theorem createClass {options : Options}
    (above : Resolves options.runtimeName none a a₁ heritage.toList base.toList n₁)
    (below : Resolves options.runtimeName (some c) (a₁.withUsed false) a₂
      (Tree.withConstructor members base.isSome) properties n₂)
    (hruntime : names options.runtimeName) (htemps : ∀ number ∈ n₁, names (Temps.name number))
    (hclass : a₂.used = true → names c) (hasConstructor : Bool) (r : Option Range) :
    ((Tree.effects heritage.toList).andThen (Tree.effects members)).Renders names
      (Tree.createClass options properties hasConstructor base r).effect := by
  have habove := Tree.Renders.effects (above.renders hruntime htemps nofun)
  have hbelow := Tree.Renders.effects (below.renders hruntime
    (by simp [below.eq_nil]) (by simpa using hclass))
  rw [Tree.effects_withConstructor] at hbelow
  rw [Tree.effect_createClass]
  exact ((habove.andThen hbelow).swap).generate hruntime

end Resolves

/-- **Lowered code resolves as the program does**, save for temporaries. -/
theorem Lowers.exists_resolves {options : Options} {c : Option String} {a a' : Account}
    {ts ts' : List Tree} (h : Lowers options c a ts ts' a') (hscopes : a.temps.scopes ≠ []) :
    ∃ new, Resolves options.runtimeName c a a' ts ts' new := by
  induction h with
  | nil => exact ⟨[], .of_scopes_eq hscopes rfl, fun _ => rfl, fun _ _ _ => .nil⟩
  | cons _ tail ihHead ihTail =>
    obtain ⟨n₁, gains₁, nil₁, renders₁⟩ := ihHead hscopes
    obtain ⟨n₂, gains₂, nil₂, renders₂⟩ := ihTail gains₁.scopes_ne_nil
    refine ⟨n₁ ++ n₂, gains₁.trans gains₂, fun hc => by simp [nil₁ hc, nil₂ hc], ?_⟩
    intro names hruntime htemps hclass
    have hhead := renders₁ hruntime (fun k hk => htemps k (List.mem_append_left _ hk))
      fun name hname hused => hclass name hname (tail.used_eq.2 hused)
    have htail := renders₂ hruntime (fun k hk => htemps k (List.mem_append_right _ hk)) hclass
    exact .cons (List.forall₂_cons.mp hhead).1 htail
  | walk _ _ _ ih =>
    obtain ⟨new, gains, -, renders⟩ := ih hscopes
    refine ⟨new, gains, nofun, fun hruntime htemps _ => ?_⟩
    exact .cons (.withChildren (renders hruntime htemps nofun)) .nil
  | scope owner _ ih =>
    obtain ⟨new, below⟩ := ih (List.cons_ne_nil _ _)
    refine ⟨[], ?_, nofun, fun hruntime _ _ => .cons (below.declaring owner hruntime) .nil⟩
    exact .of_scopes_eq hscopes below.gains.scopes_closeScope
  | @classDecl _ _ _ _ _ _ _ _ _ _ c named _ _ ihAbove ihBelow =>
    obtain ⟨n₁, above⟩ := ihAbove hscopes
    obtain ⟨n₂, below⟩ := ihBelow above.gains.scopes_ne_nil
    refine ⟨n₁ ++ n₂, above.gains.trans below.gains, nofun, fun {names} hruntime htemps _ => ?_⟩
    refine .cons ⟨rfl, ?_⟩ .nil
    rw [Tree.effect_classDecl named, Tree.effect_declareClass named]
    -- The name of the class is bound by the declaration that the class becomes.
    let allowed (name : String) : Prop := names name ∨ name = c
    have hallowed (number : Nat) (h : number ∈ n₁) : allowed (Temps.name number) :=
      .inl (htemps number (List.mem_append_left _ h))
    have hcall := Resolves.createClass above below (.inl hruntime) hallowed fun _ => .inr rfl
    refine ((Effect.Renders.refl _ _).andThen (hcall _ _)).strengthen fun name hname => ?_
    exact hname.imp_right fun hname => by simp [Effect.andThen, hname]
  | @classExprBound a a₁ a₂ _ _ _ _ _ _ _ _ _ used ihAbove ihBelow =>
    have hfresh := Account.Gains.allocate hscopes
    obtain ⟨n₁, above⟩ := ihAbove hfresh.scopes_ne_nil
    obtain ⟨n₂, below⟩ := ihBelow above.gains.scopes_ne_nil
    refine ⟨[a.fresh] ++ (n₁ ++ n₂), hfresh.trans (above.gains.trans below.gains), nofun, ?_⟩
    intro names hruntime htemps _
    refine .cons ⟨rfl, ?_⟩ .nil
    have htemp : names (Temps.name a.fresh) := htemps _ (by simp)
    rw [Tree.effect_classExpr, Tree.effect_assignTemp]
    exact (Resolves.createClass above below hruntime (fun number h => htemps number (by simp [h]))
      (fun _ => htemp) _ _).generate htemp
  | @classExprFree a a₁ a₂ _ _ _ _ _ _ _ _ _ unused ihAbove ihBelow =>
    have hfresh := Account.Gains.allocate hscopes
    obtain ⟨n₁, above⟩ := ihAbove hfresh.scopes_ne_nil
    obtain ⟨n₂, below⟩ := ihBelow above.gains.scopes_ne_nil
    have hgains := (hfresh.trans (above.gains.trans below.gains)).release
    refine ⟨n₁ ++ n₂, hgains, nofun, fun hruntime htemps _ => .cons ⟨rfl, ?_⟩ .nil⟩
    rw [Tree.effect_classExpr]
    exact Resolves.createClass above below hruntime
      (fun number h => htemps number (List.mem_append_left _ h)) (by simp [unused]) _ _
  | member legal expanded below ih =>
    obtain ⟨n₁, gains⟩ := expanded.extends.exists_gains (List.cons_ne_nil _ _)
    obtain ⟨new, lowered⟩ := ih gains.scopes_ne_nil
    refine ⟨[], ?_, fun _ => rfl, fun hruntime _ hclass => .cons ?_ .nil⟩
    · exact .of_scopes_eq hscopes (gains.trans lowered.gains).scopes_closeScope
    · have hused (h : Account.used _ = true) := hclass _ rfl ((below.used_eq.1 rfl).trans h)
      exact (Resolves.member (Tree.ownsTemps_of_ofShape? legal) expanded gains lowered hruntime
        hused).asProperty ((ofShape?_declaring _ _ _).trans legal)

/-- **The names in a lowered program.** The only name that generated code uses without declaring it
is the namespace of the helpers. -/
theorem Lowers.renders_program {options : Options} {a a' : Account} {t t' : Tree}
    (owner : t.shape.ownsTemps = true) (h : Lowers options none a [t] [t'] a') :
    Tree.Renders (· = options.runtimeName) t t' := by
  cases h with
  | walk _ shared _ =>
    rw [owner] at shared
    cases shared
  | scope _ below =>
    obtain ⟨new, resolves⟩ := below.exists_resolves (List.cons_ne_nil _ _)
    exact resolves.declaring owner rfl
  | classDecl | classExprBound | classExprFree => cases owner

end Declass
