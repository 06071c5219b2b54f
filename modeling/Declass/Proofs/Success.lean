import Declass.Proofs.Yields

/-!
# Edits that succeed

`Yields` describes runs on trees. A store may also have indices that dangle, and then a run succeeds
only if it never looks at one at the wrong moment. What can be said of all stores is said of the
runs that succeed: `Ensures session e Q` says that whenever `e` succeeds, the store has only grown
and `Q` holds in the end. Nothing is asked of the store at the start.

## Main definitions

* `Ensures` — what holds whenever an edit succeeds
* `Grows` — an edit that only appends

## Main results

* `Ensures.bind`, `ensures_node_bind`, `ensures_append`, … — one rule for each primitive edit
* `Ensures.mapM`, `ensures_walk` — a visit of the children of a node
* `Yields.ensures` — what a lowering of trees ensures
-/

namespace Declass

open Edit Lowering

variable {σ α β : Type} {session : Session σ}

/-- Whenever the edit succeeds, the store has only grown, and `Q` holds of the result and of the
session in the end. -/
def Ensures (session : Session σ) (e : Edit σ α) (Q : α → Session σ → Prop) : Prop :=
  ∀ a session', exec e session = (.ok a, session') →
    session.store ≤ session'.store ∧ Q a session'

section Rules

variable {Q R : α → Session σ → Prop} {S : β → Session σ → Prop}

theorem Ensures.imp {e : Edit σ α} (h : Ensures session e Q)
    (hQ : ∀ a session', session.store ≤ session'.store → Q a session' → R a session') :
    Ensures session e R := by
  intro a session' run
  obtain ⟨hle, hq⟩ := h a session' run
  exact ⟨hle, hQ a session' hle hq⟩

theorem Ensures.and {e : Edit σ α} (hQ : Ensures session e Q) (hR : Ensures session e R) :
    Ensures session e fun a session' => Q a session' ∧ R a session' :=
  fun a session' run => ⟨(hQ a session' run).1, (hQ a session' run).2, (hR a session' run).2⟩

theorem Ensures.bind {x : Edit σ α} {f : α → Edit σ β} (hx : Ensures session x Q)
    (hf : ∀ a session₁, session.store ≤ session₁.store → Q a session₁ → Ensures session₁ (f a) S) :
    Ensures session (x >>= f) S := by
  intro b session' run
  obtain ⟨a, session₁, hrun, hrest⟩ := exec_bind_eq_ok_iff.mp run
  obtain ⟨hle, hq⟩ := hx a session₁ hrun
  obtain ⟨hle', hs⟩ := hf a session₁ hle hq b session' hrest
  exact ⟨hle.trans hle', hs⟩

/-- A result is ensured where it is returned. -/
theorem ensures_pure {a : α} (h : Q a session) : Ensures session (pure a) Q := by
  rintro _ _ ⟨⟩
  exact ⟨le_rfl, h⟩

/-- Anything is ensured of a run that fails. -/
theorem ensures_throw {fault : Fault} : Ensures session (throw fault : Edit σ α) Q := by
  rintro _ _ ⟨⟩

theorem ensures_modifyState_bind {f : σ → σ} {g : Unit → Edit σ β}
    (h : Ensures { session with state := f session.state } (g ()) S) :
    Ensures session (modifyState f >>= g) S :=
  h

theorem ensures_modifyGetState_bind {f : σ → α × σ} {g : α → Edit σ β}
    (h : Ensures { session with state := (f session.state).2 } (g (f session.state).1) S) :
    Ensures session (modifyGetState f >>= g) S :=
  h

theorem ensures_state_bind {g : σ → Edit σ β} (h : Ensures session (g session.state) S) :
    Ensures session (state >>= g) S :=
  h

theorem ensures_store_bind {g : Store → Edit σ β} (h : Ensures session (g session.store) S) :
    Ensures session (store >>= g) S :=
  h

theorem ensures_settle_bind {a : α} {g : α → Edit σ β} (h : Ensures session (g a) S) :
    Ensures session (settle (.ok a) >>= g) S :=
  h

theorem ensures_range?_bind {id : NodeId} {g : Option Range → Edit σ β}
    (h : Ensures session (g (session.store.range? id)) S) : Ensures session (range? id >>= g) S :=
  h

/-- An edit that looks at an index succeeds only if there is a node. -/
theorem ensures_node_bind {id : NodeId} {g : Node → Edit σ β}
    (h : ∀ node, session.store.get? id = some node → Ensures session (g node) S) :
    Ensures session (node id >>= g) S := by
  intro b session' run
  cases found : session.store.get? id with
  | some node =>
    rw [exec_bind_of_ok (exec_node found session.state)] at run
    exact h node found b session' run
  | none =>
    have hnode : exec (node id) session = (.error (.missingNode id), session) := by
      change exec (settle (session.store.node id)) session = _
      rw [Store.node, found]
      rfl
    rw [exec_bind, hnode] at run
    cases run

/-- What is ensured after a node is added. -/
theorem ensures_append {shape : Shape NodeId} {range : Option Range} {Q : NodeId → Session σ → Prop}
    (h : Q session.store.nextId { session with store := session.store.push ⟨shape, range⟩ }) :
    Ensures session (append shape range) Q := by
  rintro _ _ ⟨⟩
  exact ⟨Store.le_push _ _, h⟩

theorem ensures_append_bind {shape : Shape NodeId} {range : Option Range} {g : NodeId → Edit σ β}
    (h : Ensures { session with store := session.store.push ⟨shape, range⟩ }
      (g session.store.nextId) S) : Ensures session (append shape range >>= g) S :=
  Ensures.bind (ensures_append (Q := fun id session' => id = session.store.nextId ∧
    session' = { session with store := session.store.push ⟨shape, range⟩ }) ⟨rfl, rfl⟩)
    (by rintro _ _ - ⟨rfl, rfl⟩; exact h)

/-- The added node is found under its index. -/
theorem ensures_get?_append (shape : Shape NodeId) (range : Option Range) :
    Ensures session (append shape range) fun id session' =>
      session'.store.get? id = some ⟨shape, range⟩ :=
  ensures_append (by simp [Store.get?_push])

/-- An edit whose failure is not overcome. -/
theorem ensures_attempt_bind {e : Edit σ α} {g : Except Fault α → Edit σ β}
    (he : Ensures session e Q)
    (hok : ∀ a session₁, session.store ≤ session₁.store → Q a session₁ →
      Ensures session₁ (g (.ok a)) S)
    (herror : ∀ fault session₁ b session', exec (g (.error fault)) session₁ ≠ (.ok b, session')) :
    Ensures session (attempt e >>= g) S := by
  intro b session' run
  have hattempt : exec (attempt e) session = (.ok (exec e session).1, (exec e session).2) := rfl
  rw [exec_bind_of_ok hattempt] at run
  rcases hrun : exec e session with ⟨fault | a, session₁⟩
  · rw [hrun] at run
    exact absurd run (herror fault session₁ b session')
  · rw [hrun] at run
    obtain ⟨hle, hq⟩ := he a session₁ hrun
    obtain ⟨hle', hs⟩ := hok a session₁ hle hq b session' run
    exact ⟨hle.trans hle', hs⟩

end Rules

/-! ### Visits -/

/-- A visit of a list, from what the visit of each element ensures. -/
theorem Ensures.mapM {visit : α → Edit σ β} {R : Session σ → α → β → Session σ → Prop}
    {V : Session σ → List α → List β → Session σ → Prop} (nil : ∀ session, V session [] [] session)
    (cons : ∀ {session session₁ session' : Session σ} {a b as bs}, session.store ≤ session₁.store →
      session₁.store ≤ session'.store → R session a b session₁ → V session₁ as bs session' →
      V session (a :: as) (b :: bs) session')
    (h : ∀ session a, Ensures session (visit a) (R session a)) (as : List α) (session : Session σ) :
    Ensures session (as.mapM visit) fun bs session' =>
      bs.length = as.length ∧ V session as bs session' := by
  induction as generalizing session with
  | nil => exact ensures_pure ⟨rfl, nil session⟩
  | cons a as ih =>
    rw [List.mapM_cons]
    refine (h session a).bind fun b session₁ hle hb => ?_
    refine (ih session₁).bind fun bs session' hle' hbs => ?_
    exact ensures_pure ⟨congrArg Nat.succ hbs.1, cons hle hle' hb hbs.2⟩

/-- A walk returns the node if the visit returns its children, and builds it anew otherwise. -/
theorem ensures_walk {visit : NodeId → Edit σ NodeId} {id : NodeId} {Q : NodeId → Session σ → Prop}
    {V : List NodeId → List NodeId → Session σ → Prop}
    (hvisit : ∀ ids, Ensures session (ids.mapM visit) fun ids' session' =>
      ids'.length = ids.length ∧ V ids ids' session')
    (same : ∀ node session', session.store.get? id = some node →
      session.store ≤ session'.store → V node.shape.children node.shape.children session' →
      Q id session')
    (anew : ∀ node ids session', session.store.get? id = some node →
      session.store ≤ session'.store → V node.shape.children ids session' →
      ids ≠ node.shape.children → (node.shape.refill ids).children = ids →
      Q session'.store.nextId
        { session' with store := session'.store.push ⟨node.shape.refill ids, node.range⟩ }) :
    Ensures session (walk visit id) Q := by
  refine ensures_node_bind fun node found => ?_
  rw [Shape.mapM_eq_refill, map_eq_pure_bind, bind_assoc]
  refine (hvisit node.shape.children).bind fun ids session' hle hids => ?_
  obtain ⟨hlength, hids⟩ := hids
  have hchildren : (node.shape.refill ids).children = ids := Shape.children_refill hlength
  rw [pure_bind, hchildren]
  split
  case isTrue hsame => exact ensures_pure (same node session' found hle (hsame ▸ hids))
  case isFalse hne => exact ensures_append (anew node ids session' found hle hids hne hchildren)

/-! ### Edits that only append -/

/-- The edit only appends, whatever it does to the state. -/
def Grows (e : Edit σ α) : Prop :=
  ∀ session, Ensures session e fun _ _ => True

namespace Grows

variable {x : Edit σ α} {f : α → Edit σ β}

theorem bind (hx : Grows x) (hf : ∀ a, Grows (f a)) : Grows (x >>= f) :=
  fun session => (hx session).bind fun a session₁ _ _ => hf a session₁

/-- What comes first only appends. -/
theorem ensures_bind {S : β → Session σ → Prop} (hx : Grows x)
    (hf : ∀ a session₁, session.store ≤ session₁.store → Ensures session₁ (f a) S) :
    Ensures session (x >>= f) S :=
  (hx session).bind fun a session₁ hle _ => hf a session₁ hle

theorem pure (a : α) : Grows (Pure.pure a : Edit σ α) :=
  fun _ => ensures_pure trivial

theorem throw (fault : Fault) : Grows (MonadExcept.throw fault : Edit σ α) :=
  fun _ => ensures_throw

theorem modifyState (f : σ → σ) : Grows (Edit.modifyState f) := by
  rintro session _ _ ⟨⟩
  exact ⟨le_rfl, trivial⟩

theorem modifyGetState (f : σ → α × σ) : Grows (Edit.modifyGetState f) := by
  rintro session _ _ ⟨⟩
  exact ⟨le_rfl, trivial⟩

theorem state : Grows (Edit.state : Edit σ σ) := by
  rintro session _ _ ⟨⟩
  exact ⟨le_rfl, trivial⟩

theorem node (id : NodeId) : Grows (Edit.node id : Edit σ Node) := by
  intro session
  rw [← bind_pure (Edit.node id)]
  exact ensures_node_bind fun node _ => ensures_pure trivial

theorem append (shape : Shape NodeId) (range : Option Range) :
    Grows (Edit.append shape range : Edit σ NodeId) :=
  fun _ => ensures_append trivial

theorem synth (shape : Shape NodeId) : Grows (Edit.synth shape : Edit σ NodeId) :=
  .append shape none

theorem helper (space : String) (helper : Helper) :
    Grows (Build.helper space helper : Edit σ NodeId) :=
  (Grows.synth _).bind fun _ => .synth _

/-- A visit of a list returns as many results. -/
theorem mapM_length {visit : α → Edit σ β} (h : ∀ a, Grows (visit a)) (as : List α)
    (session : Session σ) :
    Ensures session (as.mapM visit) fun bs _ => bs.length = as.length :=
  (Ensures.mapM (V := fun _ _ _ _ => True) (fun _ => trivial) (fun _ _ _ _ => trivial)
    (fun session a => h a session) as session).imp fun _ _ _ hbs => hbs.1

theorem mapM {visit : α → Edit σ β} (h : ∀ a, Grows (visit a)) (as : List α) :
    Grows (as.mapM visit) :=
  fun session => (mapM_length h as session).imp fun _ _ _ _ => trivial

/-- Whatever an edit gives, it gives in that run. -/
theorem runs (h : Grows x) (session : Session σ) :
    Ensures session x fun a session' => x.runOn session = (.ok a, session') :=
  fun a session' run => ⟨(h session a session' run).1, run⟩

end Grows

/-! ### Lowerings of trees that succeed -/

section Yields

variable {n : Nat} {Γ : Known} {v : View} {session : Session LoweringState}

theorem Yields.ensures {e : Lowering α} {Q : α → View → Known → Prop} {E : Fault → View → Prop}
    (h : Yields n Γ v e Q E) (hn : n ≤ session.store.size) (hΓ : session.store.Knows n Γ)
    (hv : session.state.view = v) : Ensures session e fun a session' =>
      ∃ Δ, session'.store.Knows n Δ ∧ Q a session'.state.view Δ := by
  intro a session' run
  have h := h session hn hΓ hv
  rw [run] at h
  exact ⟨h.1.le, h.2⟩

/-- What is built of nothing denotes its tree. -/
theorem Builds.ensures {e : Lowering NodeId} {t : Tree} (h : Builds n [] e t)
    (hn : n ≤ session.store.size) :
    Ensures session e fun id session' => session'.store.Denotes n id t := by
  have hbuilt := (h session.state.view fun _ _ => True).ensures hn Store.knows_nil rfl
  refine hbuilt.imp fun id session' _ ⟨Δ, hΔ, _, hid⟩ => hΔ (id, t) ?_
  rw [hid]
  exact List.mem_cons_self

end Yields

end Declass
