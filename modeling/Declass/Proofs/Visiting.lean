import Declass.Scope.Check
import Declass.Proofs.Frames
import Declass.Proofs.Run
import Declass.Proofs.Scoping
import Declass.Proofs.Unfolding

/-!
# The visits of the check for undefined names

The effect of a visit on the open scopes does not depend on what they hold. It adds names to the
innermost scope, names to the innermost scope that keeps `var` declarations, and uses to the
innermost scope; a declaration may come before or after the uses that it binds. What the visit of a
tree adds is read off the tree: what it binds around it, and its free uses.

## Main definitions

* `Effect`, `Check.Adds` — what a visit adds to the open scopes
* `Tree.Checkable` — what the check takes for granted about a construct

## Main results

* `Check.Adds.inScope` — what a visit in a scope of its own adds to the scopes around it
* `Check.adds_construct` — the visit of a construct adds what its rule says
* `Check.adds_visit` — the visit of a tree adds what it binds, and its free uses
-/

namespace Declass

/-! ### Effects -/

theorem bindVars_empty (frames : List Frame) : bindVars ∅ frames = frames := by
  induction frames with
  | nil => rfl
  | cons frame frames ih => simp [bindVars, Frame.bind, ih]

theorem bindVars_bindVars (names names' : Finset String) (frames : List Frame) :
    bindVars names' (bindVars names frames) = bindVars (names ∪ names') frames := by
  induction frames with
  | nil => rfl
  | cons frame frames ih =>
    by_cases h : frame.kind.isFunctionBoundary = true <;>
      simp [bindVars, h, Frame.bind, ih, Finset.union_assoc]

/-- One of the open scopes keeps the names that `var` declares. -/
def Rooted (frames : List Frame) : Prop :=
  ∃ frame ∈ frames, frame.kind.isFunctionBoundary = true

namespace Effect

/-- The frames with an effect added. -/
def on (e : Effect) : List Frame → List Frame
  | [] => []
  | frame :: frames => bindVars e.vars ((frame.bind e.locals).use e.uses :: frames)

@[simp] theorem empty_on (frames : List Frame) : ({} : Effect).on frames = frames := by
  cases frames <;> simp [on, bindVars_empty, Frame.bind, Frame.use]

theorem on_andThen (e e' : Effect) (frames : List Frame) :
    (e.andThen e').on frames = e'.on (e.on frames) := by
  cases frames with
  | nil => rfl
  | cons frame frames =>
    by_cases h : frame.kind.isFunctionBoundary = true
    · simp only [on, andThen, bindVars, Frame.bind, Frame.use, h, if_true, List.append_assoc,
        Finset.union_assoc]
      congr 3
      ac_rfl
    · simp [on, andThen, bindVars, Frame.bind, Frame.use, h, bindVars_bindVars, Finset.union_assoc]

theorem closing_on (e : Effect) (kind : ScopeKind) (frame : Frame) (frames : List Frame) :
    ∃ inner outer around, e.on ({ kind } :: frame :: frames) = inner :: outer :: around ∧
      (e.closing kind.isFunctionBoundary).on (frame :: frames) =
        outer.use inner.unresolved :: around := by
  by_cases h : kind.isFunctionBoundary = true
  · refine ⟨_, _, _, by simp only [on, bindVars, Frame.use, Frame.bind, h, if_true]; rfl, ?_⟩
    simp [closing, h, on, bindVars_empty, Frame.bind, Frame.use, Frame.unresolved]
  · by_cases hb : frame.kind.isFunctionBoundary = true
    · refine ⟨_, _, _, by simp only [on, bindVars, Frame.use, Frame.bind, h, hb, if_true]; rfl, ?_⟩
      simp [closing, h, hb, on, bindVars, Frame.bind, Frame.use, Frame.unresolved]
    · refine ⟨_, _, _, by simp only [on, bindVars, Frame.use, Frame.bind, h, hb]; rfl, ?_⟩
      simp [closing, h, hb, on, bindVars, Frame.bind, Frame.use, Frame.unresolved]

theorem rooted_on (e : Effect) {frames : List Frame} (h : Rooted frames) :
    Rooted (e.on frames) := by
  have hvars {names : Finset String} : ∀ {frames : List Frame}, Rooted frames →
      Rooted (bindVars names frames) := by
    intro frames
    induction frames with
    | nil => exact id
    | cons frame frames ih =>
      intro h
      by_cases hb : frame.kind.isFunctionBoundary = true
      · exact ⟨frame.bind names, by simp [bindVars, hb], hb⟩
      · obtain ⟨owner, hmem, hkind⟩ := ih (by simpa [Rooted, hb] using h)
        exact ⟨owner, by simp [bindVars, hb, hmem], hkind⟩
  cases frames with
  | nil => exact h
  | cons frame frames =>
    refine hvars ?_
    simpa [Rooted, Frame.bind, Frame.use] using h

end Effect

/-- Whether a construct is a `let` or `const` statement. -/
def Shape.isBlockScoped {α : Type} : Shape α → Bool
  | .varStatement keyword _ => keyword.isBlockScoped
  | _ => false

/-- Block scope does not depend on the parts. -/
theorem Shape.isBlockScoped_map {α β : Type} (f : α → β) (s : Shape α) :
    (s.map f).isBlockScoped = s.isBlockScoped := by
  cases s <;> rfl

namespace Check

/-! ### Visits -/

/-- A visit succeeds and has a given effect on the open scopes, whatever they are. -/
def Adds (c : Check Unit) (e : Effect) : Prop :=
  ∀ (st : CheckState) (stack : List ScopeId) (frames : List Frame), Rooted frames →
    st.scopes.Shows stack frames →
      ∃ st', exec c st = (.ok (), st') ∧ st'.scopes.Shows stack (e.on frames) ∧
        st'.journal.bag = st.journal.bag

theorem adds_pure : Adds (pure ()) {} :=
  fun st _ frames _ h => ⟨st, rfl, by rwa [Effect.empty_on], rfl⟩

theorem Adds.congr {c : Check Unit} {e e' : Effect} (h : Adds c e) (heq : e = e') : Adds c e' :=
  heq ▸ h

theorem Adds.andThen {c d : Check Unit} {e e' : Effect} (hc : Adds c e) (hd : Adds d e') :
    Adds (do c; d) (e.andThen e') := by
  intro st stack frames hroot h
  obtain ⟨st₁, hrun₁, h₁, hbag₁⟩ := hc st stack frames hroot h
  obtain ⟨st₂, hrun₂, h₂, hbag₂⟩ := hd st₁ stack _ (e.rooted_on hroot) h₁
  refine ⟨st₂, (exec_bind_of_ok hrun₁).trans hrun₂, ?_, hbag₂.trans hbag₁⟩
  rwa [Effect.on_andThen]

theorem exec_record (event : Log.Event) (st : CheckState) :
    exec (record event) st = (.ok (), { st with journal := st.journal.record event }) := rfl

/-- An edit of the table leaves the journal alone. -/
theorem exec_onScopes {α : Type} (edit : ScopeEdit α) (st : CheckState) :
    exec (onScopes edit) st =
      ((exec edit st.scopes).1, { st with scopes := (exec edit st.scopes).2 }) := rfl

theorem exec_onScopes_of_ok {α : Type} {edit : ScopeEdit α} {st : CheckState} {a : α}
    {scopes : Scopes} (h : exec edit st.scopes = (.ok a, scopes)) :
    exec (onScopes edit) st = (.ok a, { st with scopes }) := by
  rw [exec_onScopes, h]

theorem adds_declare (name : String) : Adds (declare name) { locals := {name} } := by
  rintro st stack (_ | ⟨frame, frames⟩) ⟨_, hroot, -⟩ h
  · cases hroot
  · obtain ⟨id, stack, -, -, rfl⟩ := List.forall₂_cons_right_iff.mp h.all
    obtain ⟨scopes, hdeclare, hshows⟩ := h.declare name
    refine ⟨{ st with scopes }, exec_onScopes_of_ok hdeclare, ?_, rfl⟩
    simpa [Effect.on, bindVars_empty, Frame.use] using hshows

theorem adds_reference (use : Reference) : Adds (reference use) { uses := [use] } := by
  rintro st stack (_ | ⟨frame, frames⟩) ⟨_, hroot, -⟩ h
  · cases hroot
  · obtain ⟨id, stack, -, -, rfl⟩ := List.forall₂_cons_right_iff.mp h.all
    obtain ⟨scopes, hreference, hshows⟩ := h.reference use
    refine ⟨{ st with scopes }, exec_onScopes_of_ok hreference, ?_, rfl⟩
    simpa [Effect.on, bindVars_empty, Frame.bind] using hshows

theorem adds_declareBinding {s : Store} {id : NodeId} {name : String}
    (h : s.identifierText id = .ok name) : Adds (declareBinding s id) { locals := {name} } := by
  rw [declareBinding, h]
  exact adds_declare name

theorem adds_declareVarBinding {s : Store} {id : NodeId} {name : String}
    (h : s.identifierText id = .ok name) : Adds (declareVarBinding s id) { vars := {name} } := by
  intro st stack frames hroot hshows
  obtain ⟨scopes, hdeclare, hshows⟩ := hshows.declareVar hroot name
  rw [declareVarBinding, h]
  refine ⟨{ st with scopes }, exec_onScopes_of_ok hdeclare, ?_, rfl⟩
  cases frames with
  | nil => exact hshows
  | cons frame frames => simpa [Effect.on, Frame.bind, Frame.use] using hshows

/-! ### Scopes -/

/-- The check closes a scope as the table does. -/
theorem exec_pop {st : CheckState} {id : ScopeId} {closing : Closing} {scopes : Scopes}
    (h : exec (ScopeEdit.pop id) st.scopes = (.ok closing, scopes)) :
    ∃ journal, exec (pop id) st = (.ok closing.escaped, ⟨scopes, journal⟩) ∧
      journal.bag = st.journal.bag := by
  have hforM {β : Type} (event : β → Log.Event) : ∀ (bs : List β) (st : CheckState), ∃ journal,
      exec (bs.forM fun b => record (event b)) st = (.ok (), { st with journal }) ∧
        journal.bag = st.journal.bag := by
    intro bs
    induction bs with
    | nil => exact fun st => ⟨st.journal, rfl, rfl⟩
    | cons b bs ih =>
      intro st
      obtain ⟨journal, hrun, hbag⟩ := ih { st with journal := st.journal.record (event b) }
      exact ⟨journal, hrun, hbag⟩
  rw [pop, exec_bind_of_ok (exec_onScopes_of_ok h), exec_bind_of_ok (exec_record _ _)]
  obtain ⟨unresolved, moved⟩ := closing
  cases moved with
  | none => exact ⟨_, rfl, rfl⟩
  | some moved =>
    obtain ⟨journal, hrun, hbag⟩ := hforM _ moved.2 _
    exact ⟨journal, exec_bind_of_ok hrun, hbag⟩

/-- What happens in a scope of its own shows around it as uses that the scope does not bind, and as
`var` declarations if it does not keep them. -/
theorem Adds.inScope {act : Check Unit} {e : Effect} (h : Adds act e) (kind : ScopeKind) :
    Adds (inScope kind act) (e.closing kind.isFunctionBoundary) := by
  rintro st stack (_ | ⟨frame, frames⟩) hroot hshows
  · obtain ⟨_, hmem, -⟩ := hroot
    cases hmem
  obtain ⟨around, stack, -, -, rfl⟩ := List.forall₂_cons_right_iff.mp hshows.all
  obtain ⟨st₁, hpush, hscopes, hbag₁⟩ :
      ∃ st₁, exec (push kind) st = (.ok (st.scopes.push kind).1, st₁) ∧
      st₁.scopes = (st.scopes.push kind).2 ∧ st₁.journal.bag = st.journal.bag := ⟨_, rfl, rfl, rfl⟩
  have hshows₁ := hshows.push kind
  rw [← hscopes] at hshows₁
  have hroot₁ : Rooted ({ kind } :: frame :: frames) := by
    obtain ⟨owner, hmem, hb⟩ := hroot
    exact ⟨owner, List.mem_cons_of_mem _ hmem, hb⟩
  obtain ⟨st₂, hact, hshows₂, hbag₂⟩ := h st₁ _ _ hroot₁ hshows₁
  obtain ⟨inner, outer, others, hinside, houtside⟩ := e.closing_on kind frame frames
  rw [hinside] at hshows₂
  obtain ⟨closing, scopes, hpop, hshows₃⟩ := hshows₂.pop
  obtain ⟨journal, hrun, hbag₃⟩ := exec_pop hpop
  refine ⟨⟨scopes, journal⟩, ?_, houtside ▸ hshows₃, (hbag₃.trans hbag₂).trans hbag₁⟩
  rw [Check.inScope, exec_bind_of_ok hpush, exec_bind_of_ok hact, exec_bind_of_ok hrun, exec_pure]

end Check

/-! ### Trees -/

namespace Tree

/-- What the check takes for granted about a construct: it is no class and no `let` or `const`
statement, and the children in binding positions are names. -/
@[mk_iff]
structure Checkable (t : Tree) : Prop where
  notClass : t.shape.isClass = false
  notBlockScoped : t.shape.isBlockScoped = false
  named : ∀ c ∈ t.shape.scopeRule.binders, c.name?.isSome

end Tree

namespace Check

section Constructs

variable {s : Store} {n : Nat} {visit : NodeId → Check Unit}

theorem adds_forM {ids : List NodeId} (h : ∀ id ∈ ids, Adds (visit id) (s.tree n id).effect) :
    Adds (ids.forM visit) (Tree.effects (ids.map (s.tree n))) := by
  induction ids with
  | nil => exact adds_pure
  | cons id ids ih =>
    rw [List.map_cons, Tree.effects_cons]
    exact (h id List.mem_cons_self).andThen (ih fun c hc => h c (List.mem_cons_of_mem _ hc))

theorem adds_optionForM {value : Option NodeId}
    (h : ∀ id ∈ value.toList, Adds (visit id) (s.tree n id).effect) :
    Adds (value.forM visit) (Tree.effects (value.toList.map (s.tree n))) := by
  cases value with
  | none => exact adds_pure
  | some id => exact (h id List.mem_cons_self).congr (Tree.effects_singleton _).symm

/-- A node holds a name, and its tree says so. -/
def Names (s : Store) (n : Nat) (id : NodeId) (name : String) : Prop :=
  s.identifierText id = .ok name ∧ (s.tree n id).name? = some name

/-- The visit of a scope, given what the visit of its parts adds. -/
theorem adds_scope (scope : InnerScope Tree) (kind : ScopeKind) {act : Check Unit}
    (hkind : kind.isFunctionBoundary = scope.keepsVars) (h : Adds act scope.inside) :
    Adds (inScope kind act) scope.outside :=
  (h.inScope kind).congr (hkind ▸ scope.closing_inside)

theorem adds_function (name : Option NodeId) {parameters : List NodeId} {body : NodeId}
    (hname : ∀ id ∈ name.toList, ∃ text, Names s n id text)
    (hparts : ∀ id ∈ parameters ++ [body], Adds (visit id) (s.tree n id).effect) :
    Adds (function s visit name parameters body) (InnerScope.outside {
      keepsVars := true, names := name.toList.map (s.tree n), words := ["arguments"]
      parts := (parameters ++ [body]).map (s.tree n) }) := by
  have hown : Adds (name.forM (declareBinding s))
      { locals := ((name.toList.map (s.tree n)).filterMap Tree.name?).toFinset } := by
    cases name with
    | none => exact adds_pure
    | some id =>
      obtain ⟨text, htext, htree⟩ := hname id List.mem_cons_self
      exact (adds_declareBinding htext).congr (by simp [htree])
  have hparameters := adds_forM fun id hid => hparts id (List.mem_append_left _ hid)
  have hbody := hparts body (by simp)
  refine adds_scope _ .function rfl
    ((hown.andThen ((adds_declare "arguments").andThen (hparameters.andThen hbody))).congr ?_)
  simp [InnerScope.inside, Effect.andThen, Tree.effects, Tree.effect]

/-- **The visit of a construct adds what its rule says.** -/
theorem adds_construct {shape : Shape NodeId} {range : Option Range} (o : Option NodeId)
    (hvisit : ∀ c ∈ shape.children, Adds (visit c) (s.tree n c).effect)
    (hnamed : ∀ c ∈ shape.scopeRule.binders, ∃ name, Names s n c name)
    (hstatements : ∀ list, shape = .program list ∨ shape = .block list →
      ∃ names ⊆ (list.flatMap fun c => (s.tree n c).vars).toFinset,
        Adds (list.forM (hoist s)) { vars := names })
    (hclass : shape.isClass = false) (hvar : shape.isBlockScoped = false) :
    Adds (construct s visit ⟨shape, range⟩)
      (Tree.effect (.node o (shape.map (s.tree n)) range)) := by
  have hchildren := adds_forM hvisit
  have hlist {list : List NodeId} (hlist : ∀ c ∈ list, Adds (visit c) (s.tree n c).effect)
      (hhoist : ∃ names ⊆ (list.flatMap fun c => (s.tree n c).vars).toFinset,
        Adds (list.forM (hoist s)) { vars := names }) :
      Adds (statements s visit list) (Tree.effects (list.map (s.tree n))) := by
    obtain ⟨names, hsub, hadds⟩ := hhoist
    refine (hadds.andThen (adds_forM hlist)).congr ?_
    simp only [Effect.andThen, Tree.effects, List.flatMap_map, Finset.empty_union, List.nil_append,
      Finset.union_eq_right.mpr hsub]
  rw [Tree.effect_node, Shape.scopeRule_map, Shape.use?_map]
  cases shape with
  | program list | block list =>
    refine (hlist hvisit (hstatements list (by simp))).congr ?_
    simp [Shape.scopeRule, ScopeRule.map, Shape.children, Shape.use?]
  | varStatement keyword declarators =>
    have hcode : construct s visit ⟨.varStatement keyword declarators, range⟩ =
        declarators.forM visit :=
      if_neg (by simpa [Shape.isBlockScoped] using hvar)
    rw [hcode]
    refine hchildren.congr ?_
    simp [Shape.scopeRule, ScopeRule.map, Shape.children, Shape.use?]
  | declarator name value =>
    obtain ⟨text, htext, htree⟩ := hnamed name (by simp [Shape.scopeRule, ScopeRule.binders])
    refine ((adds_declareVarBinding htext).andThen (adds_optionForM fun id hid =>
      hvisit id (List.mem_cons_of_mem _ hid))).congr ?_
    simp [Shape.scopeRule, ScopeRule.map, htree, Shape.use?]
  | parameter name value rest =>
    obtain ⟨text, htext, htree⟩ := hnamed name (by simp [Shape.scopeRule, ScopeRule.binders])
    refine ((adds_declareBinding htext).andThen (adds_optionForM fun id hid =>
      hvisit id (List.mem_cons_of_mem _ hid))).congr ?_
    simp [Shape.scopeRule, ScopeRule.map, htree, Shape.use?]
  | functionDecl name parameters body =>
    obtain ⟨text, htext, htree⟩ := hnamed name (by simp [Shape.scopeRule, ScopeRule.binders])
    refine ((adds_declareVarBinding htext).andThen (adds_function (some name)
      (by simpa using ⟨text, htext, htree⟩) fun id hid =>
        hvisit id (List.mem_cons_of_mem _ hid))).congr ?_
    simp [Shape.scopeRule, ScopeRule.map, InnerScope.map, htree, Shape.use?]
  | functionExpr name parameters body =>
    refine (adds_function name (fun id hid => hnamed id ?_) fun id hid => hvisit id ?_).congr ?_
    · simpa [Shape.scopeRule, ScopeRule.binders] using hid
    · simp_all [Shape.children]
    · simp [Shape.scopeRule, ScopeRule.map, InnerScope.map, Shape.use?]
  | arrow parameters body | method name parameters body =>
    refine (adds_function none (by simp) hvisit).congr ?_
    simp [Shape.scopeRule, ScopeRule.map, InnerScope.map, Shape.use?]
  | getter name body =>
    refine (adds_scope { keepsVars := true, parts := [s.tree n body] } .accessor rfl
      ((hvisit body (by simp [Shape.children])).congr ?_)).congr ?_
    · simp [InnerScope.inside, Tree.effect]
    · simp [Shape.scopeRule, ScopeRule.map, InnerScope.map, Shape.use?]
  | setter name incoming body =>
    refine (adds_scope
      { keepsVars := true, parts := [s.tree n incoming, s.tree n body] } .accessor rfl
      (((hvisit incoming (by simp [Shape.children])).andThen
        (hvisit body (by simp [Shape.children]))).congr ?_)).congr ?_
    · simp [InnerScope.inside, Tree.effect, Effect.andThen]
    · simp [Shape.scopeRule, ScopeRule.map, InnerScope.map, Shape.use?]
  | catchClause caught body =>
    obtain ⟨text, htext, htree⟩ := hnamed caught (by simp [Shape.scopeRule, ScopeRule.binders])
    refine (adds_scope
      { keepsVars := false, names := [s.tree n caught], parts := [s.tree n body] } .catchClause rfl
      (((adds_declareBinding htext).andThen
        (hvisit body (by simp [Shape.children]))).congr ?_)).congr ?_
    · simp [InnerScope.inside, Tree.effect, Effect.andThen, htree]
    · simp [Shape.scopeRule, ScopeRule.map, InnerScope.map, Shape.use?]
  | identifier name =>
    refine (adds_reference ⟨name, range⟩).congr ?_
    simp [Shape.scopeRule, ScopeRule.map, Shape.children, Shape.use?]
  | binding name =>
    refine adds_pure.congr ?_
    simp [Shape.scopeRule, ScopeRule.map, Shape.children, Shape.use?]
  | classDecl | classExpr => cases hclass
  | _ =>
    refine hchildren.congr ?_
    simp [Shape.scopeRule, ScopeRule.map, Shape.use?]

end Constructs

variable {s : Store} {n : Nat}

/-- A node that is there is found. -/
theorem node_eq {id : NodeId} {node : Node} (found : s.get? id = some node) :
    Check.node s id = pure node := by
  rw [Check.node, Store.node, found]

theorem names_of_isSome {id : NodeId} (hg : s.Grounded id) (h : (s.tree n id).name?.isSome) :
    ∃ name, Names s n id name := by
  obtain ⟨name, hname⟩ := Option.isSome_iff_exists.mp h
  refine ⟨name, ?_, hname⟩
  rw [hg.denotes.identifierText_eq, hname]

/-- Declaring functions ahead of their statements declares nothing that the statements do not. -/
theorem adds_hoist {ids : List NodeId} (hg : ∀ id ∈ ids, s.Grounded id)
    (hcheck : ∀ id ∈ ids, (s.tree n id).Checkable) :
    ∃ names ⊆ (ids.flatMap fun id => (s.tree n id).vars).toFinset,
      Adds (ids.forM (hoist s)) { vars := names } := by
  induction ids with
  | nil => exact ⟨∅, Finset.Subset.refl _, adds_pure⟩
  | cons id ids ih =>
    obtain ⟨names, hsub, hadds⟩ := ih (fun c hc => hg c (List.mem_cons_of_mem _ hc))
      fun c hc => hcheck c (List.mem_cons_of_mem _ hc)
    have hid := hg id List.mem_cons_self
    obtain ⟨⟨shape, range⟩, found, below⟩ := hid.exists_node
    obtain ⟨own, hown, hhoist⟩ : ∃ own ⊆ (s.tree n id).vars.toFinset,
        Adds (hoist s id) { vars := own } := by
      have hchecked := hcheck id List.mem_cons_self
      rw [hid.tree_eq found] at hchecked ⊢
      simp only [hoist, node_eq found, pure_bind]
      cases shape with
      | functionDecl name parameters body =>
        obtain ⟨text, htext, htree⟩ := names_of_isSome (below name (by simp [Shape.children]))
          (hchecked.named (s.tree n name) (by simp [Shape.map, Shape.scopeRule, ScopeRule.binders]))
        refine ⟨{text}, ?_, adds_declareVarBinding htext⟩
        simp [Tree.vars_node, Shape.map, Shape.scopeRule, htree]
      | _ => exact ⟨∅, Finset.empty_subset _, adds_pure⟩
    refine ⟨own ∪ names, ?_, (hhoist.andThen hadds).congr (by simp [Effect.andThen])⟩
    rw [List.flatMap_cons, List.toFinset_append]
    exact Finset.union_subset_union hown hsub

/-- **The visit of a tree adds what it binds, and its free uses.** -/
theorem adds_visit {height : Nat} {id : NodeId} (hg : s.Grounded id)
    (hcheck : (s.tree n id).Everywhere Tree.Checkable) (hheight : (s.tree n id).height ≤ height) :
    Adds (visit s height id) (s.tree n id).effect := by
  induction height generalizing id with
  | zero => exact absurd hheight (Nat.not_le.mpr (Tree.height_pos _))
  | succ height ih =>
    obtain ⟨⟨shape, range⟩, found, below⟩ := hg.exists_node
    rw [hg.tree_eq found] at hcheck hheight ⊢
    rw [Tree.height_le_succ_iff, Shape.children_map] at hheight
    have hbelow (c : NodeId) (hc : c ∈ shape.children) : (s.tree n c).Everywhere Tree.Checkable :=
      hcheck.child (by simpa using ⟨c, hc, rfl⟩)
    have hroot := hcheck.root
    simp only [visit, node_eq found, pure_bind]
    refine adds_construct _ (fun c hc => ?_) (fun c hc => ?_) (fun list hlist => ?_) ?_ ?_
    · exact ih (below c hc) (hbelow c hc) (hheight _ (List.mem_map_of_mem hc))
    · refine names_of_isSome (below c (Shape.mem_children_of_mem_binders hc)) (hroot.named _ ?_)
      rw [Tree.shape_node, Shape.scopeRule_map, ScopeRule.binders_map]
      exact List.mem_map_of_mem hc
    · have hchildren : list = shape.children := by rcases hlist with rfl | rfl <;> rfl
      rw [hchildren]
      exact adds_hoist below fun c hc => (hbelow c hc).root
    · simpa [Shape.isClass_map] using hroot.notClass
    · simpa [Shape.isBlockScoped_map] using hroot.notBlockScoped

end Check

end Declass
