import Declass.Code.Edit
import Declass.Proofs.Run
import Declass.Proofs.Shape

/-!
# Walks

`Shape.children` lists the parts of a construct and `Edit.walk` visits them; each of the two goes
through all constructs by itself. They agree: a walk calls its visitor on the listed children and on
nothing else, from left to right, up to the first call that fails. What the visitor does is left
open. It may have a state, extend the store and fail, so the calls are told by a second visitor that
does the same and keeps a list of them.

## Main definitions

* `Edit.logged` — a visitor that keeps a list of its calls
* `Edit.Returns` — a call that succeeds

## Main results

* `Edit.exec_walk` — a walk is a visit of the list of children, and a new node if one has changed
* `chain_cases` — a visit of a list succeeds element by element or fails at one of them
* `Edit.walk_visits_children` — the calls of a walk and what it returns
-/

namespace Declass

section Lists

variable {ε σ α β : Type} {f : α → ExceptT ε (StateM σ) β}

/-- A chain has one result for each element. -/
theorem Chain.length_eq {R : σ → α → β → σ → Prop} {st st' : σ} {as : List α} {bs : List β}
    (h : Chain R st as bs st') : bs.length = as.length := by
  induction h with
  | nil => rfl
  | cons _ _ ih => exact congrArg Nat.succ ih

/-- A visit of a list stops at the first element at which it fails. -/
theorem exec_mapM_of_error {before after : List α} {a : α} {bs : List β} {st st₁ st' : σ} {e : ε}
    (h : Chain (fun st a b st' => exec (f a) st = (.ok b, st')) st before bs st₁)
    (fails : exec (f a) st₁ = (.error e, st')) :
    exec ((before ++ a :: after).mapM f) st = (.error e, st') := by
  induction h with
  | nil => simp only [List.nil_append, List.mapM_cons, exec_bind, fails]
  | cons head _ ih => simp only [List.cons_append, List.mapM_cons, exec_bind, head, ih fails]

/-- A visit of a list succeeds element by element, or up to an element at which it fails. -/
theorem chain_cases (f : α → ExceptT ε (StateM σ) β) (as : List α) (st : σ) :
    (∃ bs st', Chain (fun st a b st' => exec (f a) st = (.ok b, st')) st as bs st') ∨
      ∃ before a after bs st₁ e st', as = before ++ a :: after ∧
        Chain (fun st a b st' => exec (f a) st = (.ok b, st')) st before bs st₁ ∧
        exec (f a) st₁ = (.error e, st') := by
  induction as generalizing st with
  | nil => exact .inl ⟨[], st, .nil⟩
  | cons a as ih =>
    rcases hhead : exec (f a) st with ⟨e | b, st₁⟩
    · exact .inr ⟨[], a, as, [], st, e, st₁, rfl, .nil, hhead⟩
    · rcases ih st₁ with ⟨bs, st', hchain⟩
        | ⟨before, a', after, bs, st₂, e, st', rfl, hchain, hlast⟩
      · exact .inl ⟨b :: bs, st', .cons hhead hchain⟩
      · exact .inr ⟨a :: before, a', after, b :: bs, st₂, e, st', rfl, .cons hhead hchain, hlast⟩

end Lists

/-- A shape whose children are replaced is as before in all that is not a child. -/
theorem Shape.map_unit_refill {α β : Type} [Inhabited β] {s : Shape α} {bs : List β}
    (h : bs.length = s.children.length) :
    (s.refill bs).map (fun _ => ()) = s.map fun _ => () := by
  rw [Shape.map_refill _ h, Shape.map_eq_refill, List.map_const', List.map_const', h]

/-- The session of a visitor together with the calls that it has had. -/
def Session.withCalls {σ : Type} (session : Session σ) (calls : List NodeId) :
    Session (σ × List NodeId) :=
  ⟨session.store, session.state, calls⟩

namespace Edit

variable {σ : Type} {visit : NodeId → Edit σ NodeId}

/-! ### The calls of a visitor -/

/-- The visitor that does what `visit` does and keeps a list of its calls. -/
def logged (visit : NodeId → Edit σ NodeId) (id : NodeId) : Edit (σ × List NodeId) NodeId :=
  ExceptT.mk fun session =>
    let out := (visit id).runOn ⟨session.store, session.state.1⟩
    (out.1, out.2.withCalls (session.state.2 ++ [id]))

/-- Called on `a` in the session `st`, the visitor returns `b` and leaves the session `st'`. -/
def Returns (visit : NodeId → Edit σ NodeId) (st : Session σ) (a b : NodeId) (st' : Session σ) :
    Prop :=
  (visit a).runOn st = (.ok b, st')

theorem exec_logged (visit : NodeId → Edit σ NodeId) (id : NodeId) (session : Session σ)
    (calls : List NodeId) : exec (logged visit id) (session.withCalls calls) =
      ((exec (visit id) session).1, (exec (visit id) session).2.withCalls (calls ++ [id])) := rfl

/-- Along a list of calls that succeed the logged visitor keeps all of them. -/
theorem chain_logged {st st' : Session σ} {as bs : List NodeId}
    (h : Chain (Returns visit) st as bs st') (calls : List NodeId) :
    Chain (fun st a b st' => exec (logged visit a) st = (.ok b, st')) (st.withCalls calls) as bs
      (st'.withCalls (calls ++ as)) := by
  induction h generalizing calls with
  | nil => simpa using Chain.nil
  | @cons st st₁ st' a b as bs head _ ih =>
    have hhead : exec (logged visit a) (st.withCalls calls) =
        (.ok b, st₁.withCalls (calls ++ [a])) := by
      rw [exec_logged, show exec (visit a) st = _ from head]
    refine .cons hhead ?_
    simpa using ih (calls ++ [a])

/-! ### The run of a walk -/

theorem exec_walk {session : Session σ} {id : NodeId} {node : Node}
    (found : session.store.get? id = some node) (visit : NodeId → Edit σ NodeId) :
    exec (walk visit id) session = match exec (node.shape.children.mapM visit) session with
      | (.error fault, session') => (.error fault, session')
      | (.ok results, session') =>
        if results = node.shape.children then (.ok id, session')
        else (.ok session'.store.nextId,
          { session' with
            store := session'.store.push ⟨node.shape.refill results, node.range⟩ }) := by
  have hnode : exec (Edit.node id) session = (.ok node, session) := by
    simp [Edit.node, Edit.store, exec_bind, Store.node, found, settle]
  rw [walk, exec_bind_of_ok hnode, exec_bind, Shape.mapM_eq_refill, exec_map]
  rcases hrun : exec (node.shape.children.mapM visit) session with ⟨fault | results, session'⟩
  · rfl
  · have hlength := (exec_mapM_eq_ok_iff.mp hrun).length_eq
    simp only [Except.map, Shape.children_refill hlength]
    split <;> rfl

/-- **A walk visits the listed children.** It calls the visitor on the children of the node, in the
order in which they are listed and on each once, and stops at the first call that fails. If no call
fails and each returns the child it was made on, then the walk returns the node and appends nothing.
If some call returns another index, then the walk appends one node, which differs from the old one
in its children only; these are the results of the calls. -/
theorem walk_visits_children (visit : NodeId → Edit σ NodeId) (session : Session σ) {id : NodeId}
    {node : Node} (found : session.store.get? id = some node) :
    ∃ outcome session' calls,
      (walk visit id).runOn session = (outcome, session') ∧
      (walk (logged visit) id).runOn (session.withCalls []) = (outcome, session'.withCalls calls) ∧
      ((∃ results session₁, Chain (Returns visit) session node.shape.children results session₁ ∧
          calls = node.shape.children ∧
          ((results = node.shape.children ∧ outcome = .ok id ∧ session' = session₁) ∨
            results ≠ node.shape.children ∧ ∃ shape : Shape NodeId,
              outcome = .ok session₁.store.nextId ∧
              session' = { session₁ with store := session₁.store.push ⟨shape, node.range⟩ } ∧
              shape.children = results ∧ shape.kind = node.shape.kind ∧
              shape.map (fun _ => ()) = node.shape.map fun _ => ())) ∨
        ∃ before child after results session₁ fault,
          node.shape.children = before ++ child :: after ∧
          Chain (Returns visit) session before results session₁ ∧
          (visit child).runOn session₁ = (.error fault, session') ∧
          calls = before ++ [child] ∧ outcome = .error fault) := by
  have hwalk := exec_walk found visit
  have found' : (session.withCalls []).store.get? id = some node := found
  have hlogged := exec_walk found' (logged visit)
  rcases chain_cases visit node.shape.children session with
    ⟨results, session₁, hchain⟩ |
    ⟨before, child, after, results, session₁, fault, session', hsplit, hchain, hlast⟩
  · rw [exec_mapM_eq_ok_iff.mpr hchain] at hwalk
    rw [exec_mapM_eq_ok_iff.mpr (chain_logged hchain [])] at hlogged
    by_cases hsame : results = node.shape.children
    · simp only [hsame, if_true] at hwalk hlogged
      exact ⟨_, _, _, hwalk, hlogged, .inl ⟨results, session₁, hchain, rfl, .inl ⟨hsame, rfl, rfl⟩⟩⟩
    · simp only [hsame, if_false] at hwalk hlogged
      have houtline := Shape.map_unit_refill (s := node.shape) hchain.length_eq
      exact ⟨_, _, _, hwalk, hlogged, .inl ⟨results, session₁, hchain, rfl,
        .inr ⟨hsame, node.shape.refill results, rfl, rfl, Shape.children_refill hchain.length_eq,
          by simpa using congrArg Shape.kind houtline, houtline⟩⟩⟩
  · have hfails : exec (logged visit child) (session₁.withCalls ([] ++ before)) =
        (.error fault, session'.withCalls (before ++ [child])) := by
      rw [exec_logged, hlast, List.nil_append]
    rw [hsplit, exec_mapM_of_error hchain hlast] at hwalk
    rw [hsplit, exec_mapM_of_error (chain_logged hchain []) hfails] at hlogged
    exact ⟨_, _, _, hwalk, hlogged,
      .inr ⟨before, child, after, results, session₁, fault, hsplit, hchain, hlast, rfl, rfl⟩⟩

/-- The expression `f(x, y)`. -/
def callStore : Store where
  nodes := #[⟨.identifier "f", none⟩, ⟨.identifier "x", none⟩, ⟨.identifier "y", none⟩,
    ⟨.call ⟨0⟩ [⟨1⟩, ⟨2⟩], some (.onLine 0 0 7)⟩]

/-- A visitor that counts its calls and puts a new name in the place of the second node. -/
def replaceSecond (id : NodeId) : Edit Nat NodeId := do
  modifyState (· + 1)
  if id = ⟨1⟩ then synth (.identifier "z") else return id

/-- The walk calls the visitor three times and appends `f(z, y)` after the new name. -/
theorem walk_visits_children_call :
    callStore.get? ⟨3⟩ = some ⟨.call ⟨0⟩ [⟨1⟩, ⟨2⟩], some (.onLine 0 0 7)⟩ ∧
    ∃ session' shape, (walk replaceSecond ⟨3⟩).runOn ⟨callStore, 0⟩ = (.ok ⟨5⟩, session') ∧
      (walk (logged replaceSecond) ⟨3⟩).runOn (Session.withCalls ⟨callStore, 0⟩ []) =
        (.ok ⟨5⟩, session'.withCalls [⟨0⟩, ⟨1⟩, ⟨2⟩]) ∧
      session'.store.get? ⟨5⟩ = some ⟨shape, some (.onLine 0 0 7)⟩ ∧ session'.state = 3 ∧
      shape.children = [⟨0⟩, ⟨4⟩, ⟨2⟩] ∧ shape.kind = "CallExpression" := by
  have found : callStore.get? ⟨3⟩ = some ⟨.call ⟨0⟩ [⟨1⟩, ⟨2⟩], some (.onLine 0 0 7)⟩ := rfl
  have hrun : ((walk replaceSecond ⟨3⟩).runOn ⟨callStore, 0⟩).1 = .ok ⟨5⟩ := rfl
  have hstate : ((walk replaceSecond ⟨3⟩).runOn ⟨callStore, 0⟩).2.state = 3 := rfl
  have hvisits : (exec ([⟨0⟩, ⟨1⟩, ⟨2⟩].mapM replaceSecond) ⟨callStore, 0⟩).1 =
      .ok [⟨0⟩, ⟨4⟩, ⟨2⟩] := rfl
  obtain ⟨outcome, session', calls, hwalk, hlogged, h⟩ :=
    walk_visits_children replaceSecond ⟨callStore, 0⟩ found
  rw [hwalk] at hrun hstate
  obtain rfl : outcome = .ok ⟨5⟩ := hrun
  refine ⟨found, session', ?_⟩
  rcases h with ⟨results, session₁, hchain, rfl, ⟨-, hid, -⟩ |
      ⟨-, shape, hid, hsession, hchildren, hkind, -⟩⟩ | ⟨_, _, _, _, _, _, -, -, -, -, hfault⟩
  · cases hid
  · have hresults : results = [⟨0⟩, ⟨4⟩, ⟨2⟩] := by
      have hall : exec ([⟨0⟩, ⟨1⟩, ⟨2⟩].mapM replaceSecond) ⟨callStore, 0⟩ =
          (.ok results, session₁) :=
        exec_mapM_eq_ok_iff.mpr hchain
      rw [hall] at hvisits
      exact Except.ok.inj hvisits
    have hfound : session'.store.get? ⟨5⟩ = some ⟨shape, some (.onLine 0 0 7)⟩ := by
      rw [hsession, Store.get?_push, if_pos (Except.ok.inj hid)]
    exact ⟨shape, hwalk, hlogged, hfound, hstate, hchildren.trans hresults, hkind⟩
  · cases hfault

end Edit

end Declass
