import Declass.Fault

/-!
# Running computations that may fail

All passes are computations with a state that may fail and that keep their state when they do. This
module says how such computations run, step by step, and how a visit of a list runs element by
element.

A state that is asked for one thing after the other has a history, which is the list of its answers.

## Main definitions

* `exec` — outcome and final state of a computation
* `Chain` — a relation between the runs of the single elements of a list
* `history` — the answers to a list of requests

## Main results

* `exec_bind` and its like — how the building blocks run
* `exec_mapM_eq_ok_iff` — a visit of a list succeeds iff it does so element by element
* `history_induction` — what each answer keeps holds after every history
-/

namespace Declass

variable {ε σ α β : Type}

/-- The outcome of a computation and the state it leaves behind. -/
def exec (c : ExceptT ε (StateM σ) α) (st : σ) : Except ε α × σ :=
  StateT.run (ExceptT.run c) st

@[simp] theorem exec_pure (a : α) (st : σ) :
    exec (pure a : ExceptT ε (StateM σ) α) st = (.ok a, st) := rfl

@[simp] theorem exec_throw (e : ε) (st : σ) :
    exec (throw e : ExceptT ε (StateM σ) α) st = (.error e, st) := rfl

theorem exec_mk (f : σ → Except ε α × σ) (st : σ) : exec (ExceptT.mk f) st = f st := rfl

/-- The run of two parts, by the outcome of the first. -/
theorem exec_bind (x : ExceptT ε (StateM σ) α) (f : α → ExceptT ε (StateM σ) β) (st : σ) :
    exec (x >>= f) st = match exec x st with
      | (.ok a, st') => exec (f a) st'
      | (.error e, st') => (.error e, st') := by
  change (StateT.run (ExceptT.run (x >>= f)) st) = _
  simp only [exec, ExceptT.run_bind, StateT.run_bind]
  rcases h : StateT.run (ExceptT.run x) st with ⟨out, st'⟩
  cases out <;> rfl

/-- A run goes on from where a first part that succeeds ends. -/
theorem exec_bind_of_ok {x : ExceptT ε (StateM σ) α} {f : α → ExceptT ε (StateM σ) β}
    {st st' : σ} {a : α} (h : exec x st = (.ok a, st')) :
    exec (x >>= f) st = exec (f a) st' := by
  rw [exec_bind, h]

/-- A run ends where a first part fails. -/
theorem exec_bind_of_error {x : ExceptT ε (StateM σ) α} {f : α → ExceptT ε (StateM σ) β}
    {st st' : σ} {e : ε} (h : exec x st = (.error e, st')) :
    exec (x >>= f) st = (.error e, st') := by
  rw [exec_bind, h]

/-- A run in two parts succeeds iff both parts do, one after the other. -/
theorem exec_bind_eq_ok_iff {x : ExceptT ε (StateM σ) α} {f : α → ExceptT ε (StateM σ) β}
    {st st' : σ} {b : β} :
    exec (x >>= f) st = (.ok b, st') ↔
      ∃ a st₁, exec x st = (.ok a, st₁) ∧ exec (f a) st₁ = (.ok b, st') := by
  rw [exec_bind]
  rcases exec x st with ⟨_ | a, st₁⟩
  · simp
  · constructor
    · intro hb
      exact ⟨a, st₁, rfl, hb⟩
    · rintro ⟨_, _, ⟨⟩, hb⟩
      exact hb

@[simp] theorem exec_map (f : α → β) (x : ExceptT ε (StateM σ) α) (st : σ) :
    exec (f <$> x) st = ((exec x st).1.map f, (exec x st).2) := by
  rw [← bind_pure_comp, exec_bind]
  rcases exec x st with ⟨_ | a, st₁⟩ <;> rfl

@[simp] theorem exec_get (st : σ) :
    exec (get : ExceptT ε (StateM σ) σ) st = (.ok st, st) := rfl

@[simp] theorem exec_modify (f : σ → σ) (st : σ) :
    exec (modify f : ExceptT ε (StateM σ) Unit) st = (.ok (), f st) := rfl

@[simp] theorem exec_modifyGet (f : σ → α × σ) (st : σ) :
    exec (modifyGet f : ExceptT ε (StateM σ) α) st = (.ok (f st).1, (f st).2) := rfl

/-! ### Lists -/

/-- `R` leads from `st` to `st'` along two lists, one step for each pair of elements. -/
inductive Chain (R : σ → α → β → σ → Prop) : σ → List α → List β → σ → Prop where
  | nil {st : σ} : Chain R st [] [] st
  | cons {st st₁ st' : σ} {a : α} {b : β} {as : List α} {bs : List β} (head : R st a b st₁)
      (tail : Chain R st₁ as bs st') : Chain R st (a :: as) (b :: bs) st'

/-- A list is run through iff its elements can be chained. -/
theorem exec_mapM_eq_ok_iff {f : α → ExceptT ε (StateM σ) β} {as : List α} :
    ∀ {bs : List β} {st st' : σ}, exec (as.mapM f) st = (.ok bs, st') ↔
      Chain (fun st a b st' => exec (f a) st = (.ok b, st')) st as bs st' := by
  induction as with
  | nil =>
    intro bs st st'
    simp only [List.mapM_nil, exec_pure, Prod.mk.injEq, Except.ok.injEq]
    constructor
    · rintro ⟨rfl, rfl⟩
      exact .nil
    · rintro ⟨⟩
      exact ⟨rfl, rfl⟩
  | cons a as ih =>
    intro bs st st'
    simp only [List.mapM_cons, exec_bind_eq_ok_iff, exec_pure, Prod.mk.injEq, Except.ok.injEq, ih]
    constructor
    · rintro ⟨b, st₁, hb, bs', st₂, hbs, rfl, rfl⟩
      exact .cons hb hbs
    · rintro (_ | ⟨hb, hbs⟩)
      exact ⟨_, _, hb, _, _, hbs, rfl, rfl⟩

/-! ### Histories -/

/-- The answers to requests that are made one after the other, and the state in the end. -/
def history (answer : σ → α → β × σ) (st : σ) : List α → List β × σ
  | [] => ([], st)
  | a :: as =>
    let (b, st₁) := answer st a
    let (bs, st') := history answer st₁ as
    (b :: bs, st')

variable {answer : σ → α → β × σ}

theorem history_append (st : σ) (as as' : List α) :
    history answer st (as ++ as') =
      let first := history answer st as
      let second := history answer first.2 as'
      (first.1 ++ second.1, second.2) := by
  induction as generalizing st with
  | nil => rfl
  | cons a as ih => simp [history, ih]

/-- **What holds at first and is kept by each answer holds after every history.** -/
theorem history_induction {P : List β → σ → Prop} {st : σ} (first : P [] st)
    (next : ∀ bs st' a, P bs st' → P (bs ++ [(answer st' a).1]) (answer st' a).2) (as : List α) :
    P (history answer st as).1 (history answer st as).2 := by
  -- The induction is on the requests to come, after any answers already given.
  suffices ∀ bs st, P bs st → P (bs ++ (history answer st as).1) (history answer st as).2 from
    this [] st first
  induction as with
  | nil => simp [history]
  | cons a as ih =>
    intro bs st h
    simpa [history] using ih _ _ (next bs st a h)

theorem snoc_eq_append_cons_iff {as before after : List α} {a b : α} :
    as ++ [a] = before ++ b :: after ↔
      (as = before ∧ a = b ∧ after = []) ∨
        ∃ rest, as = before ++ b :: rest ∧ after = rest ++ [a] := by
  rcases List.eq_nil_or_concat after with rfl | ⟨rest, last, rfl⟩
  · simp [List.append_singleton_inj]
  · have hsnoc : before ++ b :: (rest ++ [last]) = (before ++ b :: rest) ++ [last] := by simp
    rw [List.concat_eq_append, hsnoc, List.append_singleton_inj]
    simp only [List.append_singleton_inj, List.append_eq_nil_iff, List.cons_ne_nil, and_false,
      false_or]
    exact ⟨fun ⟨has, ha⟩ => ⟨rest, has, rfl, ha.symm⟩, fun ⟨_, has, hrest, ha⟩ =>
      ⟨hrest ▸ has, ha.symm⟩⟩

/-- Every event keeps a law that looks at what was before it. -/
def Throughout (law : List β → β → Prop) (events : List β) : Prop :=
  ∀ before event after, events = before ++ event :: after → law before event

theorem throughout_nil (law : List β → β → Prop) : Throughout law [] := by
  intro before event after h
  simp at h

theorem Throughout.snoc {law : List β → β → Prop} {events : List β} {event : β}
    (h : Throughout law events) (last : law events event) : Throughout law (events ++ [event]) := by
  intro before event' after heq
  rcases snoc_eq_append_cons_iff.mp heq with ⟨rfl, rfl, -⟩ | ⟨rest, heq, -⟩
  · exact last
  · exact h before event' rest heq

end Declass
