import Declass.Proofs.Run
import Declass.Proofs.Rewriting
import Declass.Proofs.Unfolding

/-!
# Reasoning about lowerings

A lowering reads a store and extends it, by nodes that refer to older ones. Since the store only
grows, a node that denotes a tree does so for good: what is known about nodes is a list of nodes
with their trees that gets longer as the lowering goes on, and it never has to be looked at again.
The rest of the state is described by its view, which leaves the log out.

`Yields Γ v e Q E` says what `e` does when `Γ` is known and `v` is the view: it ends in a value, a
view and new knowledge that satisfy `Q`, or in a fault and a view that satisfy `E`.

A visit of nodes that follows a relation between trees (a `Judgement`) does so for the lists of
children of a node too, and for a walk of the node.

## Main definitions

* `View`, `Known`, `Store.Knows`
* `Yields`, `Builds` — the two forms of triple
* `Judgement`, `Judgement.Follows`

## Main results

* `Yields.bind`, `yields_node_bind`, `builds_append`, … — one rule for each primitive edit
* `Judgement.Follows.mapM`, `Judgement.Follows.walk` — a visit of the children of a node
-/

namespace Declass

open Edit

/-- The state of a lowering without its log. -/
structure View where
  temps : Temps
  classes : List ClassContext
  usedSuper : Bool
  bag : Bag

/-- The state without its log. -/
def LoweringState.view (state : LoweringState) : View :=
  ⟨state.temps, state.classes, state.usedSuper, state.journal.bag⟩

/-- Nodes with the trees they are known to denote. -/
abbrev Known : Type :=
  List (NodeId × Tree)

/-- All that `Γ` says holds in the store. -/
def Store.Knows (s : Store) (n : Nat) (Γ : Known) : Prop :=
  ∀ p ∈ Γ, s.Denotes n p.1 p.2

namespace Store

variable {s s' : Store} {n : Nat} {Γ Δ : Known}

theorem Knows.mono (h : s.Knows n Γ) (hle : s ≤ s') : s'.Knows n Γ :=
  fun p hp => (h p hp).mono hle

theorem Knows.subset (h : s.Knows n Γ) (hsub : Δ ⊆ Γ) : s.Knows n Δ :=
  fun p hp => h p (hsub hp)

theorem knows_append : s.Knows n (Δ ++ Γ) ↔ s.Knows n Δ ∧ s.Knows n Γ := by
  simp only [Knows, List.mem_append, or_imp, forall_and]

@[simp] theorem knows_nil : s.Knows n [] := by
  simp [Knows]

/-- What is known, item by item. -/
theorem knows_cons {p : NodeId × Tree} :
    s.Knows n (p :: Γ) ↔ s.Denotes n p.1 p.2 ∧ s.Knows n Γ := by
  simp [Knows]

theorem Knows.map_snd (h : s.Knows n Γ) : Γ.map Prod.snd = (Γ.map Prod.fst).map (s.tree n) := by
  rw [List.map_map]
  exact List.map_congr_left fun p hp => (h p hp).tree_eq.symm

end Store

/-! ### Triples -/

variable {n : Nat} {Γ Δ : Known} {v : View} {α β : Type} {E : Fault → View → Prop}

/-- What a lowering does when `Γ` is known and `v` is the view of the state. -/
def Yields (n : Nat) (Γ : Known) (v : View) (e : Lowering α) (Q : α → View → Known → Prop)
    (E : Fault → View → Prop) : Prop :=
  ∀ session : Session LoweringState,
    n ≤ session.store.size → session.store.Knows n Γ → session.state.view = v →
    session.store.Extends (exec e session).2.store ∧
      match exec e session with
      | (.ok a, session') =>
        ∃ Δ, session'.store.Knows n Δ ∧ Q a session'.state.view Δ
      | (.error fault, session') => E fault session'.state.view

section Rules

variable {Q R : α → View → Known → Prop} {S : β → View → Known → Prop}

theorem Yields.bind {x : Lowering α} {f : α → Lowering β} (hx : Yields n Γ v x Q E)
    (hf : ∀ a v' Δ, Q a v' Δ → Yields n (Δ ++ Γ) v' (f a) S E) : Yields n Γ v (x >>= f) S E := by
  intro session hn hΓ hv
  have hx := hx session hn hΓ hv
  rw [exec_bind]
  generalize exec x session = out at hx ⊢
  rcases out with ⟨_ | a, session₁⟩
  · exact hx
  · obtain ⟨hext, Δ, hΔ, hq⟩ := hx
    have hf := hf a _ Δ hq session₁ (hn.trans (Store.size_le_of_le hext.le))
      (Store.knows_append.mpr ⟨hΔ, hΓ.mono hext.le⟩) rfl
    exact ⟨hext.trans hf.1, hf.2⟩

theorem Yields.imp {e : Lowering α} {E' : Fault → View → Prop} (h : Yields n Γ v e Q E)
    (hQ : ∀ a v' Δ, Q a v' Δ → R a v' Δ) (hE : ∀ fault v', E fault v' → E' fault v') :
    Yields n Γ v e R E' := by
  intro session hn hΓ hv
  have h := h session hn hΓ hv
  generalize exec e session = out at h ⊢
  rcases out with ⟨fault | a, session'⟩
  · exact ⟨h.1, hE _ _ h.2⟩
  · obtain ⟨hext, Δ, hΔ, hq⟩ := h
    exact ⟨hext, Δ, hΔ, hQ _ _ _ hq⟩

/-- A result is yielded in the view at hand. -/
theorem yields_pure {a : α} (Δ : Known) (hsub : Δ ⊆ Γ) (h : Q a v Δ) :
    Yields n Γ v (pure a) Q E := by
  intro session hn hΓ hv
  refine ⟨.refl _, Δ, hΓ.subset hsub, ?_⟩
  rw [hv]
  exact h

/-- A fault is raised in the view at hand. -/
theorem yields_throw {fault : Fault} (h : E fault v) :
    Yields n Γ v (throw fault : Lowering α) Q E := by
  intro session hn hΓ hv
  refine ⟨.refl _, ?_⟩
  rw [← hv] at h
  exact h

/-- A computation that runs on the state alone and succeeds. -/
theorem yields_of_exec {e : Lowering α} {a : α} {v' : View}
    (h : ∀ session : Session LoweringState, session.state.view = v →
      ∃ state, exec e session = (.ok a, { session with state }) ∧ state.view = v')
    (hq : Q a v' []) : Yields n Γ v e Q E := by
  intro session hn hΓ hv
  obtain ⟨state, hexec, rfl⟩ := h session hv
  rw [hexec]
  exact ⟨.refl _, [], Store.knows_nil, hq⟩

theorem yields_modifyState_bind {f : LoweringState → LoweringState} {g : Unit → Lowering β}
    (v' : View) (hf : ∀ state, state.view = v → (f state).view = v')
    (h : Yields n Γ v' (g ()) S E) : Yields n Γ v (modifyState f >>= g) S E := by
  refine Yields.bind (Q := fun _ w Δ => w = v' ∧ Δ = [])
    (yields_of_exec (fun session hv => ⟨f session.state, rfl, hf _ hv⟩) ⟨rfl, rfl⟩) ?_
  rintro _ _ _ ⟨rfl, rfl⟩
  exact h

theorem yields_modifyGetState_bind {f : LoweringState → α × LoweringState} {g : α → Lowering β}
    (a : α) (v' : View) (hf : ∀ state, state.view = v → (f state).1 = a ∧ (f state).2.view = v')
    (h : Yields n Γ v' (g a) S E) : Yields n Γ v (modifyGetState f >>= g) S E := by
  refine Yields.bind (Q := fun b w Δ => b = a ∧ w = v' ∧ Δ = [])
    (yields_of_exec (fun session hv => ⟨(f session.state).2, ?_, (hf _ hv).2⟩) ⟨rfl, rfl, rfl⟩) ?_
  · rw [← (hf _ hv).1]
    rfl
  · rintro _ _ _ ⟨rfl, rfl, rfl⟩
    exact h

theorem yields_record_bind {event : Log.Event} {g : Unit → Lowering β}
    (h : Yields n Γ v (g ()) S E) : Yields n Γ v (Lowering.record event >>= g) S E :=
  yields_modifyState_bind v (fun _ hv => hv) h

/-- A note reads the state for its fields and changes nothing but the log. -/
theorem yields_state_bind {g : LoweringState → Lowering β}
    (h : ∀ state, state.view = v → Yields n Γ v (g state) S E) :
    Yields n Γ v (state >>= g) S E := by
  intro session hn hΓ hv
  exact h session.state hv session hn hΓ hv

/-- The store at hand has all that is known, and perhaps more. -/
theorem yields_store_bind {g : Store → Lowering β}
    (h : ∀ s : Store, s.Knows n Γ → ∃ Δ, s.Knows n Δ ∧ Yields n (Δ ++ Γ) v (g s) S E) :
    Yields n Γ v (store >>= g) S E := by
  intro session hn hΓ hv
  obtain ⟨Δ, hΔ, h⟩ := h session.store hΓ
  exact h session hn (Store.knows_append.mpr ⟨hΔ, hΓ⟩) hv

/-- What is known may be used. -/
theorem yields_of_knows {e : Lowering α} (h : ∀ s : Store, s.Knows n Γ → Yields n Γ v e Q E) :
    Yields n Γ v e Q E :=
  fun session hn hΓ hv => h session.store hΓ session hn hΓ hv

theorem yields_settle_bind {a : α} {g : α → Lowering β} (h : Yields n Γ v (g a) S E) :
    Yields n Γ v (settle (.ok a) >>= g) S E := by
  intro session hn hΓ hv
  exact h session hn hΓ hv

theorem yields_throw_bind {fault : Fault} {g : α → Lowering β} (h : E fault v) :
    Yields n Γ v (settle (.error fault) >>= g) S E := by
  intro session hn hΓ hv
  refine ⟨.refl _, ?_⟩
  rw [← hv] at h
  exact h

/-- A part whose failure is looked at before it is passed on. -/
theorem yields_attempt_bind {x : Lowering α} {g : Except Fault α → Lowering β}
    {F : Fault → View → Prop} (hx : Yields n Γ v x Q F)
    (hok : ∀ a v' Δ, Q a v' Δ → Yields n (Δ ++ Γ) v' (g (.ok a)) S E)
    (herror : ∀ fault v', F fault v' → Yields n Γ v' (g (.error fault)) S E) :
    Yields n Γ v (attempt x >>= g) S E := by
  intro session hn hΓ hv
  have hx := hx session hn hΓ hv
  have hrun : exec (attempt x) session = (.ok (exec x session).1, (exec x session).2) := rfl
  rw [exec_bind_of_ok hrun]
  generalize exec x session = out at hx ⊢
  rcases out with ⟨fault | a, session₁⟩
  · obtain ⟨hext, hfault⟩ := hx
    have h := herror fault _ hfault session₁ (hn.trans (Store.size_le_of_le hext.le))
      (hΓ.mono hext.le) rfl
    exact ⟨hext.trans h.1, h.2⟩
  · obtain ⟨hext, Δ, hΔ, hq⟩ := hx
    have h := hok a _ Δ hq session₁ (hn.trans (Store.size_le_of_le hext.le))
      (Store.knows_append.mpr ⟨hΔ, hΓ.mono hext.le⟩) rfl
    exact ⟨hext.trans h.1, h.2⟩

/-! ### Reading nodes -/

theorem isLeaf_map {γ δ : Type} (f : γ → δ) (s : Shape γ) : (s.map f).isLeaf = s.isLeaf := by
  cases s <;> rfl

/-- A node that is there can be fetched. -/
theorem exec_node {σ : Type} {s : Store} {id : NodeId} {found : Node} (h : s.get? id = some found)
    (state : σ) : exec (node id) ⟨s, state⟩ = (.ok found, ⟨s, state⟩) := by
  change exec (settle (s.node id)) _ = _
  rw [Store.node, h]
  rfl

/-- To look at a known node is to know its children. -/
theorem yields_node_bind {id : NodeId} {t : Tree} {g : Node → Lowering β} (h : (id, t) ∈ Γ)
    (hg : ∀ (z : Shape (NodeId × Tree)) (range : Option Range),
      t = .node (Store.originOf n id z) (z.map Prod.snd) range →
      Yields n (z.children ++ Γ) v (g ⟨z.map Prod.fst, range⟩) S E) :
    Yields n Γ v (node id >>= g) S E := by
  intro session hn hΓ hv
  have hd : session.store.Denotes n id t := hΓ _ h
  obtain ⟨⟨shape, range⟩, found, below, rfl⟩ := hd.exists_node
  let z : Shape (NodeId × Tree) := shape.map fun c => (c, session.store.tree n c)
  have hfst : z.map Prod.fst = shape := (Shape.map_map _ _ shape).trans (Shape.map_id shape)
  have hsnd : z.map Prod.snd = shape.map (session.store.tree n) := Shape.map_map _ _ shape
  have hz : session.store.Knows n z.children := by
    intro p hp
    obtain ⟨c, hc, rfl⟩ := List.mem_map.mp (Shape.children_map _ shape ▸ hp)
    exact (below c hc).denotes
  rw [exec_bind_of_ok (exec_node found session.state), ← hfst]
  refine hg z range ?_ session hn (Store.knows_append.mpr ⟨hz, hΓ⟩) hv
  rw [hsnd, Store.originOf, Store.originOf, isLeaf_map]

theorem yields_range?_bind {id : NodeId} {t : Tree} {g : Option Range → Lowering β}
    (h : (id, t) ∈ Γ) (hg : Yields n Γ v (g t.range) S E) :
    Yields n Γ v (range? id >>= g) S E := by
  intro session hn hΓ hv
  have hd : session.store.Denotes n id t := hΓ _ h
  obtain ⟨node, found, -, rfl⟩ := hd.exists_node
  have hrange : exec (range? id) session = (.ok node.range, session) := by
    have : session.store.range? id = node.range := by rw [Store.range?, found]; rfl
    rw [← this]
    rfl
  rw [exec_bind_of_ok hrange]
  exact hg session hn hΓ hv

/-- A known node is returned. -/
theorem yields_return {S : NodeId → View → Known → Prop} (p : NodeId × Tree) (hp : p ∈ Γ)
    (h : S p.1 v [p]) : Yields n Γ v (pure p.1) S E :=
  yields_pure [p] (by simpa using hp) h

end Rules

/-! ### Building nodes -/

/-- The lowering makes a node that denotes `t` and does nothing else. -/
def Builds (n : Nat) (Γ : Known) (e : Lowering NodeId) (t : Tree) : Prop :=
  ∀ v E, Yields n Γ v e (fun id v' Δ => v' = v ∧ Δ = [(id, t)]) E

section Builds

variable {e : Lowering NodeId} {t u : Tree} {S : β → View → Known → Prop}

theorem Builds.bind {g : NodeId → Lowering β} (h : Builds n Γ e t)
    (hg : ∀ id, Yields n ((id, t) :: Γ) v (g id) S E) : Yields n Γ v (e >>= g) S E := by
  refine Yields.bind (h v E) ?_
  rintro id _ _ ⟨rfl, rfl⟩
  exact hg id

theorem Builds.andThen {g : NodeId → Lowering NodeId} (h : Builds n Γ e t)
    (hg : ∀ id, Builds n ((id, t) :: Γ) (g id) u) : Builds n Γ (e >>= g) u :=
  fun v E => h.bind fun id => hg id v E

/-- A node made of known parts denotes the tree made of their trees. -/
theorem builds_append (z : Shape (NodeId × Tree)) (range : Option Range)
    (h : ∀ p ∈ z.children, p ∈ Γ) :
    Builds n Γ (append (z.map Prod.fst) range) (.node none (z.map Prod.snd) range) := by
  intro v E session hn hΓ hv
  have hd : ∀ p ∈ z.children, session.store.Denotes n p.1 p.2 := fun p hp => hΓ p (h p hp)
  have below : ∀ c ∈ (z.map Prod.fst).children, session.store.Grounded c := by
    intro c hc
    obtain ⟨p, hp, rfl⟩ := List.mem_map.mp (Shape.children_map _ z ▸ hc)
    exact (hd p hp).grounded
  have hpush := Store.denotes_push ⟨z.map Prod.fst, range⟩ hn below
  have htree : (z.map Prod.fst).map (session.store.tree n) = z.map Prod.snd := by
    rw [Shape.map_map]
    exact Shape.map_congr fun p hp => (hd p hp).tree_eq
  rw [htree] at hpush
  have hextends : session.store.Extends (session.store.push ⟨z.map Prod.fst, range⟩) :=
    Store.extends_push fun c hc => (below c hc).index_lt
  refine ⟨hextends, [(session.store.nextId, .node none (z.map Prod.snd) range)], ?_, ?_⟩
  · exact Store.knows_cons.mpr ⟨hpush, Store.knows_nil⟩
  · exact ⟨hv, rfl⟩

/-- A node is built anew only if parts of it have changed. -/
theorem builds_unless_same {P : Prop} [Decidable P] {id : NodeId} (olds news : Known)
    (z : Shape (NodeId × Tree)) (range : Option Range) (hid : (id, t) ∈ Γ) (holds : olds ⊆ Γ)
    (hnews : news ⊆ Γ) (hz : ∀ p ∈ z.children, p ∈ Γ)
    (hP : P → news.map Prod.fst = olds.map Prod.fst)
    (hsame : news.map Prod.snd = olds.map Prod.snd → t = .node none (z.map Prod.snd) range) :
    Builds n Γ (if P then pure id else append (z.map Prod.fst) range)
      (.node none (z.map Prod.snd) range) := by
  intro v E
  split
  case isTrue hp =>
    refine yields_of_knows fun s hs => ?_
    have htrees : news.map Prod.snd = olds.map Prod.snd := by
      rw [(hs.subset hnews).map_snd, (hs.subset holds).map_snd, hP hp]
    exact yields_return (id, t) hid ⟨rfl, by rw [hsame htrees]⟩
  case isFalse => exact builds_append z range hz v E

/-- A node of known parts is built over their trees. -/
theorem builds_synth (z : Shape (NodeId × Tree)) (h : ∀ p ∈ z.children, p ∈ Γ) :
    Builds n Γ (synth (z.map Prod.fst)) (.gen (z.map Prod.snd)) :=
  builds_append z none h

theorem builds_identifier (name : String) : Builds n Γ (Build.identifier name) (.ident name) :=
  builds_synth (.identifier name) (by simp [Shape.children])

theorem builds_string (value : String) : Builds n Γ (Build.string value) (.text value) :=
  builds_synth (.literal (.string value)) (by simp [Shape.children])

theorem builds_boolean (value : Bool) : Builds n Γ (Build.boolean value) (.boolean value) :=
  builds_synth (.literal (.boolean value)) (by simp [Shape.children])

theorem builds_assign (target value : NodeId × Tree) (ht : target ∈ Γ) (hv : value ∈ Γ) :
    Builds n Γ (Build.assign target.1 value.1) (.assign target.2 value.2) :=
  builds_synth (.binary target "=" value) (by simp [Shape.children, ht, hv])

theorem builds_helper (space : String) (helper : Helper) :
    Builds n Γ (Build.helper space helper) (.helper space helper) :=
  (builds_identifier space).andThen fun id =>
    builds_synth (.member (id, .ident space) helper.name) (by simp [Shape.children])

end Builds

/-! ### Visits that follow a relation between trees -/

/-- A relation between lists of trees that is made up of the relation between single trees, with the
faults that can stand in its way and the account in which they leave it. -/
structure Judgement where
  /-- What the visits keep about the state. -/
  inv : View → Prop
  /-- The account that a state stands for. -/
  account : View → Account
  rel : Account → List Tree → List Tree → Account → Prop
  fails : Account → List Tree → Fault → Account → Prop
  nil : ∀ a, rel a [] [] a
  cons : ∀ {a a₁ a' t t' ts ts'}, rel a [t] [t'] a₁ → rel a₁ ts ts' a' →
    rel a (t :: ts) (t' :: ts') a'
  fails_head : ∀ {a a' t ts fault}, fails a [t] fault a' → fails a (t :: ts) fault a'
  fails_tail : ∀ {a a₁ a' t t' ts fault}, rel a [t] [t'] a₁ → fails a₁ ts fault a' →
    fails a (t :: ts) fault a'

namespace Judgement

variable (J : Judgement)

/-- The state `v'` after trees were rewritten that began in the state `v`. -/
def Ends (v : View) (ts ts' : List Tree) (v' : View) : Prop :=
  J.inv v' ∧ J.rel (J.account v) ts ts' (J.account v')

/-- The state `v'` after the rewriting of trees failed that began in the state `v`. -/
def Stops (v : View) (ts : List Tree) (fault : Fault) (v' : View) : Prop :=
  J.inv v' ∧ J.fails (J.account v) ts fault (J.account v')

/-- Whatever else is known besides `Γ₀`, the visit of a node that denotes a tree in `D` follows the
judgement. The new node is read off the result with `out`; `note` is what else the result says about
the tree. -/
def Reports (n : Nat) (Γ₀ : Known) (D : Tree → Prop) (out : β → NodeId) (note : Tree → β → Prop)
    (visit : NodeId → Lowering β) : Prop :=
  ∀ Γ v id t, Γ₀ ⊆ Γ → (id, t) ∈ Γ → D t → J.inv v →
    Yields n Γ v (visit id)
      (fun b v' Δ => note t b ∧ ∃ t', Δ = [(out b, t')] ∧ J.Ends v [t] [t'] v') (J.Stops v [t])

/-- The visit of a node follows the judgement and returns the new node. -/
def Follows (n : Nat) (Γ₀ : Known) (D : Tree → Prop) (visit : NodeId → Lowering NodeId) : Prop :=
  J.Reports n Γ₀ D id (fun _ _ => True) visit

variable {J} {Γ₀ : Known} {D : Tree → Prop} {out : β → NodeId} {note : Tree → β → Prop}

theorem Reports.mapM {visit : NodeId → Lowering β} (h : J.Reports n Γ₀ D out note visit) :
    ∀ (ps : Known) (Γ : Known) (v : View), Γ₀ ⊆ Γ → ps ⊆ Γ → (∀ p ∈ ps, D p.2) → J.inv v →
    Yields n Γ v ((ps.map Prod.fst).mapM visit)
      (fun bs v' Δ => List.Forall₂ note (ps.map Prod.snd) bs ∧ Δ.map Prod.fst = bs.map out ∧
        J.Ends v (ps.map Prod.snd) (Δ.map Prod.snd) v')
      (J.Stops v (ps.map Prod.snd)) := by
  intro ps
  induction ps with
  | nil =>
    intro Γ v _ _ _ hv
    exact yields_pure [] (List.nil_subset Γ) ⟨.nil, rfl, hv, J.nil _⟩
  | cons p ps ih =>
    intro Γ v hΓ₀ hps hD hv
    obtain ⟨hp, hps⟩ := List.cons_subset.mp hps
    rw [List.map_cons, List.map_cons, List.mapM_cons]
    have hhead := h Γ v p.1 p.2 hΓ₀ hp (hD p (by simp)) hv
    refine Yields.bind (hhead.imp (fun _ _ _ hq => hq) ?_) ?_
    · rintro fault v' ⟨hv', hf⟩
      exact ⟨hv', J.fails_head hf⟩
    rintro b v₁ _ ⟨hb, t', rfl, hv₁, hrel⟩
    have htail := ih ([(out b, t')] ++ Γ) v₁ (List.Subset.trans hΓ₀ (List.subset_append_right _ _))
      (List.Subset.trans hps (List.subset_append_right _ _)) (fun q hq => hD q (by simp [hq])) hv₁
    refine Yields.bind (htail.imp (fun _ _ _ hq => hq) ?_) ?_
    · rintro fault v' ⟨hv', hf⟩
      exact ⟨hv', J.fails_tail hrel hf⟩
    rintro bs v' Δ ⟨hbs, hout, hv', hrel'⟩
    refine yields_pure ((out b, t') :: Δ) (by simp) ?_
    exact ⟨.cons hb hbs, by simp [hout], hv', J.cons hrel hrel'⟩

theorem Follows.mapM {visit : NodeId → Lowering NodeId} (h : J.Follows n Γ₀ D visit) {ps Γ : Known}
    (hΓ₀ : Γ₀ ⊆ Γ) (hps : ps ⊆ Γ) (hD : ∀ p ∈ ps, D p.2) (hv : J.inv v) :
    Yields n Γ v ((ps.map Prod.fst).mapM visit)
      (fun ids v' Δ => ids = Δ.map Prod.fst ∧ Δ.length = ps.length ∧
        J.Ends v (ps.map Prod.snd) (Δ.map Prod.snd) v')
      (J.Stops v (ps.map Prod.snd)) := by
  refine (Reports.mapM h ps Γ v hΓ₀ hps hD hv).imp ?_ (fun _ _ hf => hf)
  rintro ids v' Δ ⟨hnote, hout, hends⟩
  have hids : ids = Δ.map Prod.fst := by simpa using hout.symm
  exact ⟨hids, by simpa [hids] using hnote.length_eq.symm, hends⟩

/-- A visit of a part that may be left out. -/
theorem Follows.optionMapM {visit : NodeId → Lowering NodeId} (h : J.Follows n Γ₀ D visit)
    {Γ : Known} {part : Option (NodeId × Tree)} (hΓ₀ : Γ₀ ⊆ Γ) (hpart : part.toList ⊆ Γ)
    (hD : ∀ p ∈ part.toList, D p.2) (hv : J.inv v) :
    Yields n Γ v ((part.map Prod.fst).mapM visit)
      (fun out v' Δ => ∃ part' : Option (NodeId × Tree), out = part'.map Prod.fst ∧
        Δ = part'.toList ∧
        part'.isSome = part.isSome ∧
        J.Ends v (part.map Prod.snd).toList (part'.map Prod.snd).toList v')
      (J.Stops v (part.map Prod.snd).toList) := by
  cases part with
  | none => exact yields_pure [] (List.nil_subset Γ) ⟨none, rfl, rfl, rfl, hv, J.nil _⟩
  | some p =>
    rw [Option.map_some, Option.mapM_some, map_eq_pure_bind]
    refine Yields.bind (h Γ v p.1 p.2 hΓ₀ (hpart (by simp)) (hD p (by simp)) hv) ?_
    rintro id v' _ ⟨-, t', rfl, hends⟩
    exact yields_pure [(id, t')] (by simp) ⟨some (id, t'), rfl, rfl, rfl, hends⟩

/-- A visit of the children of a node. -/
theorem Follows.walk {visit : NodeId → Lowering NodeId} (h : J.Follows n Γ₀ D visit) {Γ : Known}
    {id : NodeId} {t : Tree} (hΓ₀ : Γ₀ ⊆ Γ) (hid : (id, t) ∈ Γ) (hD : ∀ c ∈ t.shape.children, D c)
    (hv : J.inv v) :
    Yields n Γ v (walk visit id)
      (fun id' v' Δ => ∃ cs, Δ = [(id', t.withChildren cs)] ∧ J.Ends v t.shape.children cs v')
      (J.Stops v t.shape.children) := by
  refine yields_node_bind hid fun z range ht => ?_
  have hchildren : t.shape.children = z.children.map Prod.snd := by simp [ht]
  rw [Shape.mapM_eq_refill, Shape.children_map, hchildren, map_eq_pure_bind, bind_assoc]
  refine Yields.bind (Follows.mapM h (List.Subset.trans hΓ₀ (List.subset_append_right _ _))
    (List.subset_append_left _ _) (fun p hp => hD p.2 (hchildren ▸ List.mem_map_of_mem hp)) hv) ?_
  rintro _ v' Δ ⟨rfl, hlength, hends⟩
  have hnew : (z.map Prod.fst).refill (Δ.map Prod.fst) = (z.refill Δ).map Prod.fst := by
    rw [Shape.refill_map, Shape.map_refill _ hlength]
  rw [pure_bind, hnew, Shape.children_map, Shape.children_refill hlength]
  split
  case isTrue hsame =>
    -- The children stand for the same trees as before, so the node stands for its own tree.
    refine yields_of_knows fun s hs => ?_
    obtain ⟨hΔ, hs⟩ := Store.knows_append.mp hs
    have htrees : Δ.map Prod.snd = z.children.map Prod.snd := by
      rw [hΔ.map_snd, (Store.knows_append.mp hs).1.map_snd, hsame]
    refine yields_return (id, t) (by simp [hid]) ⟨z.children.map Prod.snd, ?_, htrees ▸ hends⟩
    rw [← hchildren, Tree.withChildren_children]
  case isFalse hdiff =>
    have horigin : Store.originOf n id z = none := by
      refine if_neg fun hleaf => hdiff ?_
      have : Δ = [] := by simpa [Shape.children_eq_nil_of_isLeaf hleaf.2] using hlength
      simp [this, Shape.children_eq_nil_of_isLeaf hleaf.2]
    refine (builds_append (z.refill Δ) range (by simp_all) v' _).imp ?_ (fun _ _ hf => hf)
    rintro id' _ _ ⟨rfl, rfl⟩
    refine ⟨Δ.map Prod.snd, ?_, hends⟩
    simp [Tree.withChildren, ht, horigin, Shape.map_refill _ hlength]

end Judgement

end Declass
