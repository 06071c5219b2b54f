import Mathlib.Logic.Relation
import Declass.Proofs.Visiting

/-!
# Histories of scopes

Scopes are opened, used and closed in any order, perhaps with requests that are refused. Whatever
the requests were, the open scopes are a chain of parents, and a scope that was closed stays as it
is.

A use that was pending in a scope is never lost. While the scope is open the use is pending there.
When the scope is closed, the scope declares the name, or the use is handed on to its parent, or
there is no parent and the use is returned. `Accounted` follows a use along this path.

## Main definitions

* `Scopes.Request`, `Scopes.Event`, `Scopes.handle` — what is asked and what comes of it
* `Scopes.Nearest` — the first scope on the way out that has a property
* `Scopes.Step`, `Scopes.Refusal` — what a request may do to the table, and why it is refused
* `Scopes.Nested`, `Scopes.Tracked` — the invariant of the table, alone and along a history
* `Scopes.Accounted` — where a use has got to

## Main results

* `Scopes.Nested.exists_owner` — the owner of a `var` declaration is found along the parents
* `Scopes.Nested.handle_cases` — every request is refused and changes nothing, or is a step
* `Scopes.Nested.step`, `Scopes.Step.accounted` — what a step keeps
* `Scopes.history_conserves` — the laws of the table of scopes
-/

namespace Declass

/-! ### Scopes that grow -/

namespace Scope

/-- A scope later on: it has more names, and it may have been closed. -/
structure Extends (scope scope' : Scope) : Prop where
  kind : scope'.kind = scope.kind
  parent : scope'.parent = scope.parent
  declares : ∀ name, scope.declares name = true → scope'.declares name = true

/-- A scope later on, while it is open. -/
structure Grows (scope scope' : Scope) : Prop extends scope.Extends scope' where
  pending : ∀ name, (scope.pending? name).isSome → (scope'.pending? name).isSome

variable {scope scope₁ scope' : Scope} {name : String} {use : Reference}

theorem Extends.refl (scope : Scope) : scope.Extends scope :=
  ⟨rfl, rfl, fun _ h => h⟩

theorem Grows.refl (scope : Scope) : scope.Grows scope :=
  ⟨.refl _, fun _ h => h⟩

theorem Grows.trans (h₁ : scope.Grows scope₁) (h₂ : scope₁.Grows scope') : scope.Grows scope' where
  kind := h₂.kind.trans h₁.kind
  parent := h₂.parent.trans h₁.parent
  declares name hname := h₂.declares name (h₁.declares name hname)
  pending name hname := h₂.pending name (h₁.pending name hname)

theorem extends_close (scope : Scope) : scope.Extends { scope with pending := [] } :=
  ⟨rfl, rfl, fun _ h => h⟩

theorem grows_declare (scope : Scope) (name : String) : scope.Grows (scope.declare name) := by
  rw [declare]
  split
  · exact .refl _
  · exact ⟨⟨rfl, rfl, fun other h => by simp_all [declares]⟩, fun _ h => h⟩

theorem grows_reference (scope : Scope) (use : Reference) : scope.Grows (scope.reference use) := by
  rw [reference]
  split
  · exact .refl _
  · exact ⟨⟨rfl, rfl, fun _ h => h⟩, fun name h => by simp_all [pending?]⟩

theorem grows_foldl_reference (uses : List Reference) (scope : Scope) :
    scope.Grows (uses.foldl reference scope) := by
  induction uses generalizing scope with
  | nil => exact .refl _
  | cons use uses ih => exact (scope.grows_reference use).trans (ih _)

theorem isSome_pending?_reference (scope : Scope) (use : Reference) :
    ((scope.reference use).pending? use.name).isSome := by
  rw [reference]
  split
  case isTrue h => exact h
  case isFalse => simp [pending?]

theorem isSome_pending?_foldl_reference {uses : List Reference} (hu : use ∈ uses) (scope : Scope) :
    ((uses.foldl reference scope).pending? use.name).isSome := by
  induction uses generalizing scope with
  | nil => cases hu
  | cons first uses ih =>
    rcases List.mem_cons.mp hu with rfl | hu
    · exact (grows_foldl_reference uses _).pending _ (scope.isSome_pending?_reference use)
    · exact ih hu _

/-- A pending use is resolved by the scope or left over. -/
theorem exists_mem_unresolved (hpending : (scope.pending? name).isSome)
    (hdeclares : scope.declares name = false) : ∃ use ∈ scope.unresolved, use.name = name := by
  obtain ⟨use, hmem, rfl⟩ : ∃ use ∈ scope.pending, use.name = name := by
    simpa [pending?] using hpending
  refine ⟨use, ?_, rfl⟩
  rw [unresolved, List.mem_mergeSort, List.mem_filter]
  simp [hmem, hdeclares]

end Scope

namespace Scopes

variable {scopes scopes' : Scopes} {id outer s : ScopeId} {name : String}

/-! ### Requests -/

/-- What may be asked of a table of scopes. -/
inductive Request where
  | push (kind : ScopeKind)
  | pop (id : ScopeId)
  | declare (name : String)
  | declareVar (name : String)
  | reference (use : Reference)
  deriving DecidableEq, Repr

/-- What a request that is not refused returns. -/
inductive Answer where
  | opened (id : ScopeId)
  | closed (escaped : List Reference)
  | done
  deriving DecidableEq, Repr

/-- Do what is asked. -/
def perform : Request → Check Answer
  | .push kind => do return .opened (← Check.push kind)
  | .pop id => do return .closed (← Check.pop id)
  | .declare name => do
    Check.declare name
    return .done
  | .declareVar name => do
    Check.declareVar name
    return .done
  | .reference use => do
    Check.reference use
    return .done

/-- A request and what has come of it. -/
structure Event where
  request : Request
  outcome : Except Fault Answer
  deriving DecidableEq

/-- Answer a request. -/
def handle (st : CheckState) (request : Request) : Event × CheckState :=
  let (outcome, st') := exec (perform request) st
  (⟨request, outcome⟩, st')

/-- The scope has been closed. -/
def Closed (events : List Event) (id : ScopeId) : Prop :=
  ∃ escaped, ⟨.pop id, .ok (.closed escaped)⟩ ∈ events

/-! ### The way out of a scope -/

/-- The scope `outer` is the parent of `inner`. -/
def Around (scopes : Scopes) (inner outer : ScopeId) : Prop :=
  ∃ scope, scopes.get? inner = some scope ∧ scope.parent = some outer

/-- The scope has no parent. -/
def Parentless (scopes : Scopes) (id : ScopeId) : Prop :=
  ∃ scope, scopes.get? id = some scope ∧ scope.parent = none

/-- The first scope with a property on the way from one scope to its parent, and so on. -/
inductive Nearest (scopes : Scopes) (p : ScopeId → Prop) : ScopeId → ScopeId → Prop where
  | here {id : ScopeId} (holds : p id) : Nearest scopes p id id
  | up {id outer owner : ScopeId} (fails : ¬ p id) (around : scopes.Around id outer)
      (above : Nearest scopes p outer owner) : Nearest scopes p id owner

/-- The name is declared in the scope. -/
def Declares (scopes : Scopes) (id : ScopeId) (name : String) : Prop :=
  ∃ scope, scopes.get? id = some scope ∧ scope.declares name = true

/-- A use of the name is pending in the scope. -/
def Pending (scopes : Scopes) (id : ScopeId) (name : String) : Prop :=
  ∃ scope, scopes.get? id = some scope ∧ (scope.pending? name).isSome

/-- The scope keeps `var` declarations, or there is no scope to pass them on to. -/
def KeepsVars (scopes : Scopes) (id : ScopeId) : Prop :=
  ∃ scope, scopes.get? id = some scope ∧
    (scope.kind.isFunctionBoundary = true ∨ scope.parent = none)

/-! ### Steps -/

/-- What a request does to the table when it is not refused. -/
inductive Step (scopes : Scopes) : Request → Answer → Scopes → Prop where
  | push (kind : ScopeKind) :
      Step scopes (.push kind) (.opened (scopes.push kind).1) (scopes.push kind).2
  | declare {id : ScopeId} (name : String) (isCurrent : scopes.current? = some id) :
      Step scopes (.declare name) .done (scopes.modify id (·.declare name))
  | declareVar {id owner : ScopeId} (name : String) (isCurrent : scopes.current? = some id)
      (isOwner : scopes.Nearest scopes.KeepsVars id owner) :
      Step scopes (.declareVar name) .done (scopes.modify owner (·.declare name))
  | reference {id : ScopeId} (use : Reference) (isCurrent : scopes.current? = some id) :
      Step scopes (.reference use) .done (scopes.modify id (·.reference use))
  | popLast {id : ScopeId} {scope : Scope} (isCurrent : scopes.current? = some id)
      (found : scopes.get? id = some scope) (parentless : scope.parent = none) :
      Step scopes (.pop id) (.closed scope.unresolved) (scopes.close id none)
  | pop {id outer : ScopeId} {scope around : Scope} (isCurrent : scopes.current? = some id)
      (found : scopes.get? id = some scope) (parent : scope.parent = some outer)
      (above : (scopes.close id (some outer)).get? outer = some around) :
      Step scopes (.pop id) (.closed [])
        ((scopes.close id (some outer)).handOn outer (around.newUses scope.unresolved))

/-- Why a request is refused: no scope is open, or one is to be closed that is not the innermost. -/
inductive Refusal (scopes : Scopes) : Request → Fault → Prop where
  | idle {request : Request} (isIdle : scopes.current? = none)
      (asks : ∀ kind, request ≠ .push kind) : Refusal scopes request .noActiveScope
  | mismatch {id actual : ScopeId} (isCurrent : scopes.current? = some actual)
      (isOther : actual ≠ id) : Refusal scopes (.pop id) (.scopeMismatch id actual)

theorem Step.not_refusal {request : Request} {answer : Answer} {fault : Fault}
    (step : Step scopes request answer scopes') : ¬ scopes.Refusal request fault := by
  rintro (⟨isIdle, asks⟩ | ⟨isCurrent, isOther⟩)
  · cases step with
    | push kind => exact asks kind rfl
    | declare name isCurrent => exact nomatch isIdle.symm.trans isCurrent
    | declareVar name isCurrent isOwner => exact nomatch isIdle.symm.trans isCurrent
    | reference use isCurrent => exact nomatch isIdle.symm.trans isCurrent
    | popLast isCurrent found parentless => exact nomatch isIdle.symm.trans isCurrent
    | pop isCurrent found parent above => exact nomatch isIdle.symm.trans isCurrent
  · cases step with
    | popLast isCurrent' found parentless =>
      exact isOther (Option.some.inj (isCurrent.symm.trans isCurrent'))
    | pop isCurrent' found parent above =>
      exact isOther (Option.some.inj (isCurrent.symm.trans isCurrent'))

theorem Refusal.fault_eq {request : Request} {fault fault' : Fault}
    (h : scopes.Refusal request fault) (h' : scopes.Refusal request fault') : fault = fault' := by
  cases h with
  | idle isIdle => cases h' with
    | idle => rfl
    | mismatch isCurrent => exact nomatch isIdle.symm.trans isCurrent
  | mismatch isCurrent => cases h' with
    | idle isIdle => exact nomatch isIdle.symm.trans isCurrent
    | mismatch isCurrent' => rw [Option.some.inj (isCurrent.symm.trans isCurrent')]

/-- The open scopes after an answer, if those before it are known. -/
def Answer.openScopes (stack : List ScopeId) : Answer → List ScopeId
  | .opened id => id :: stack
  | .closed _ => stack.tail
  | .done => stack

/-! ### What a step keeps -/

@[simp] theorem size_modify (scopes : Scopes) (id : ScopeId) (f : Scope → Scope) :
    (scopes.modify id f).size = scopes.size := by
  simp [modify, size]

theorem get?_close (scopes : Scopes) (id other : ScopeId) (parent : Option ScopeId) :
    (scopes.close id parent).get? other =
      if other = id then (scopes.get? other).map ({ · with pending := [] })
      else scopes.get? other :=
  get?_modify scopes id other _

@[simp] theorem size_close (scopes : Scopes) (id : ScopeId) (parent : Option ScopeId) :
    (scopes.close id parent).size = scopes.size :=
  size_modify _ _ _

@[simp] theorem size_push (scopes : Scopes) (kind : ScopeKind) :
    (scopes.push kind).2.size = scopes.size + 1 :=
  Array.size_push _

theorem exists_get?_of_lt (h : id.index < scopes.size) : ∃ scope, scopes.get? id = some scope :=
  ⟨_, Array.getElem?_eq_getElem h⟩

/-- The scopes of one table later on, in another. -/
def Keeps (scopes scopes' : Scopes) : Prop :=
  ∀ id scope, scopes.get? id = some scope → ∃ scope', scopes'.get? id = some scope' ∧
    scope.Extends scope'

namespace Keeps

theorem trans {scopes₁ : Scopes} (h₁ : scopes.Keeps scopes₁) (h₂ : scopes₁.Keeps scopes') :
    scopes.Keeps scopes' := by
  intro id scope found
  obtain ⟨scope₁, found₁, hext₁⟩ := h₁ id scope found
  obtain ⟨scope', found', hext'⟩ := h₂ id scope₁ found₁
  exact ⟨scope', found', hext'.kind.trans hext₁.kind, hext'.parent.trans hext₁.parent,
    fun name h => hext'.declares name (hext₁.declares name h)⟩

theorem modify {f : Scope → Scope} (hf : ∀ scope : Scope, scope.Extends (f scope)) :
    scopes.Keeps (scopes.modify id f) := by
  intro other scope found
  rw [get?_modify, found]
  split
  · exact ⟨_, rfl, hf scope⟩
  · exact ⟨_, rfl, .refl scope⟩

theorem close {parent : Option ScopeId} : scopes.Keeps (scopes.close id parent) :=
  Keeps.modify Scope.extends_close

theorem handOn {uses : List Reference} : scopes.Keeps (scopes.handOn id uses) :=
  Keeps.modify fun scope => (Scope.grows_foldl_reference _ scope).toExtends

theorem push (kind : ScopeKind) : scopes.Keeps (scopes.push kind).2 := by
  intro id scope found
  exact ⟨scope, by rw [get?_push, if_neg (ne_push_of_get? found kind), found], .refl scope⟩

theorem declares (h : scopes.Keeps scopes') (hd : scopes.Declares id name) :
    scopes'.Declares id name := by
  obtain ⟨scope, found, hname⟩ := hd
  obtain ⟨scope', found', hext⟩ := h id scope found
  exact ⟨scope', found', hext.declares name hname⟩

theorem around (h : scopes.Keeps scopes') (ha : scopes.Around id outer) :
    scopes'.Around id outer := by
  obtain ⟨scope, found, hparent⟩ := ha
  obtain ⟨scope', found', hext⟩ := h id scope found
  exact ⟨scope', found', hext.parent.trans hparent⟩

theorem around_iff (h : scopes.Keeps scopes') (hsize : scopes'.size = scopes.size) :
    scopes'.Around id outer ↔ scopes.Around id outer := by
  refine ⟨fun ⟨scope', found', hparent⟩ => ?_, h.around⟩
  obtain ⟨scope, found⟩ := exists_get?_of_lt (hsize ▸ index_lt_size found')
  obtain ⟨scope'', found'', hext⟩ := h id scope found
  obtain rfl := Option.some.inj (found'.symm.trans found'')
  exact ⟨scope, found, hext.parent.symm.trans hparent⟩

theorem parentless (h : scopes.Keeps scopes') (hp : scopes.Parentless id) :
    scopes'.Parentless id := by
  obtain ⟨scope, found, hparent⟩ := hp
  obtain ⟨scope', found', hext⟩ := h id scope found
  exact ⟨scope', found', hext.parent.trans hparent⟩

end Keeps

/-- No step takes a scope or a name in it away. -/
theorem Step.keeps {request : Request} {answer : Answer}
    (step : Step scopes request answer scopes') : scopes.Keeps scopes' := by
  cases step with
  | push kind => exact .push kind
  | declare name | declareVar name =>
    exact .modify fun scope => (scope.grows_declare name).toExtends
  | reference use => exact .modify fun scope => (scope.grows_reference use).toExtends
  | popLast => exact .close
  | pop => exact Keeps.close.trans .handOn

/-- The scopes of `stack` are open, the innermost one first. Parents are older than their scopes,
and nothing is pending in a scope that is not open. -/
structure Nested (scopes : Scopes) (stack : List ScopeId) : Prop where
  isCurrent : scopes.current? = stack.head?
  linked : scopes.Linked stack
  parent_lt : ∀ id outer, scopes.Around id outer → outer.index < id.index
  settled : ∀ id ∉ stack, ∀ name, ¬ scopes.Pending id name

theorem nested_empty : ({} : Scopes).Nested [] where
  isCurrent := rfl
  linked := trivial
  parent_lt := by simp [Around, get?]
  settled := by simp [Pending, get?]

namespace Nested

variable {stack rest : List ScopeId} {request : Request} {answer : Answer}

theorem exists_eq_cons (h : scopes.Nested stack) (isCurrent : scopes.current? = some id) :
    ∃ rest, stack = id :: rest :=
  ⟨stack.tail, (List.cons_head?_tail (h.isCurrent.symm.trans isCurrent)).symm⟩

theorem exists_get?_current (h : scopes.Nested stack) (isCurrent : scopes.current? = some id) :
    ∃ scope, scopes.get? id = some scope := by
  obtain ⟨rest, rfl⟩ := h.exists_eq_cons isCurrent
  exact h.linked.exists_get? List.mem_cons_self

/-- Open scopes are older the farther out they are, so that none is met twice. -/
theorem nodup (h : scopes.Nested stack) : stack.Nodup := by
  have hlt : ∀ {stack}, scopes.Linked stack →
      stack.Pairwise fun inner outer => outer.index < inner.index := by
    intro stack linked
    induction stack with
    | nil => exact .nil
    | cons id rest ih =>
      obtain ⟨⟨scope, found, hparent⟩, hrest⟩ := linked
      refine List.pairwise_cons.mpr ⟨fun other hother => ?_, ih hrest⟩
      cases rest with
      | nil => cases hother
      | cons outer rest =>
        have hstep := h.parent_lt id outer ⟨scope, found, hparent⟩
        rcases List.mem_cons.mp hother with rfl | hother
        · exact hstep
        · exact ((List.pairwise_cons.mp (ih hrest)).1 other hother).trans hstep
  exact (hlt h.linked).imp fun hlt heq => (heq ▸ hlt).false

/-- A change to an open scope. -/
theorem modify (h : scopes.Nested stack) {f : Scope → Scope}
    (hf : ∀ scope : Scope, scope.Grows (f scope)) (hid : id ∈ stack) :
    (scopes.modify id f).Nested stack where
  isCurrent := h.isCurrent
  linked := h.linked.modify id fun scope => (hf scope).parent
  parent_lt inner outer haround := by
    have hkeeps : scopes.Keeps (scopes.modify id f) := .modify fun scope => (hf scope).toExtends
    exact h.parent_lt inner outer ((hkeeps.around_iff (size_modify _ _ _)).mp haround)
  settled other hother name := by
    have hne : other ≠ id := fun heq => hother (heq ▸ hid)
    rw [Pending, get?_modify_of_ne hne]
    exact h.settled other hother name

theorem push (h : scopes.Nested stack) (kind : ScopeKind) :
    (scopes.push kind).2.Nested ((scopes.push kind).1 :: stack) where
  isCurrent := rfl
  linked := h.linked.push h.isCurrent kind
  parent_lt inner outer haround := by
    obtain ⟨scope, found, hparent⟩ := haround
    rw [get?_push] at found
    split at found
    case isTrue heq =>
      obtain rfl := Option.some.inj found
      obtain ⟨scope, found⟩ := h.exists_get?_current hparent
      rw [heq]
      exact index_lt_size found
    case isFalse => exact h.parent_lt inner outer ⟨scope, found, hparent⟩
  settled other hother name := by
    obtain ⟨hne, hother⟩ := not_or.mp (mt List.mem_cons.mpr hother)
    rw [Pending, get?_push, if_neg hne]
    exact h.settled other hother name

/-- Closing the innermost scope. -/
theorem close (h : scopes.Nested (id :: rest)) {scope : Scope} {parent : Option ScopeId}
    (found : scopes.get? id = some scope) (hparent : scope.parent = parent) :
    (scopes.close id parent).Nested rest where
  isCurrent := by
    obtain ⟨scope', found', hrest⟩ := h.linked.1
    obtain rfl := Option.some.inj (found.symm.trans found')
    exact hparent.symm.trans hrest
  linked := h.linked.2.close id parent
  parent_lt inner outer haround :=
    h.parent_lt inner outer ((Keeps.close.around_iff (size_modify _ _ _)).mp haround)
  settled other hother name := by
    rintro ⟨scope, found, hpending⟩
    by_cases heq : other = id
    · subst heq
      rw [get?_close, if_pos rfl] at found
      obtain ⟨scope, -, rfl⟩ := Option.map_eq_some_iff.mp found
      simp [Scope.pending?] at hpending
    · rw [get?_close, if_neg heq] at found
      exact h.settled other (List.not_mem_cons_of_ne_of_not_mem heq hother) name
        ⟨scope, found, hpending⟩

/-- The way out of an open scope passes through open scopes only. -/
theorem mem_of_nearest {p : ScopeId → Prop} {owner : ScopeId} (linked : scopes.Linked (id :: rest))
    (hnearest : scopes.Nearest p id owner) : owner ∈ id :: rest := by
  induction hnearest generalizing rest with
  | here holds => exact List.mem_cons_self
  | up fails around above ih =>
    obtain ⟨⟨scope, found, hparent⟩, hrest⟩ := linked
    obtain ⟨scope', found', hparent'⟩ := around
    obtain rfl := Option.some.inj (found.symm.trans found')
    obtain ⟨rest, rfl⟩ := List.head?_eq_some_iff.mp (hparent.symm.trans hparent')
    exact List.mem_cons_of_mem _ (ih hrest)

/-- **Every step keeps the scopes nested.** -/
theorem step (h : scopes.Nested stack) (step : Step scopes request answer scopes') :
    scopes'.Nested (answer.openScopes stack) := by
  cases step with
  | push kind => exact h.push kind
  | declare name isCurrent =>
    obtain ⟨rest, rfl⟩ := h.exists_eq_cons isCurrent
    exact h.modify (·.grows_declare name) List.mem_cons_self
  | declareVar name isCurrent isOwner =>
    obtain ⟨rest, rfl⟩ := h.exists_eq_cons isCurrent
    exact h.modify (·.grows_declare name) (mem_of_nearest h.linked isOwner)
  | reference use isCurrent =>
    obtain ⟨rest, rfl⟩ := h.exists_eq_cons isCurrent
    exact h.modify (·.grows_reference use) List.mem_cons_self
  | popLast isCurrent found parentless =>
    obtain ⟨rest, rfl⟩ := h.exists_eq_cons isCurrent
    exact h.close found parentless
  | pop isCurrent found parent above =>
    obtain ⟨rest, rfl⟩ := h.exists_eq_cons isCurrent
    have hclose := h.close found parent
    obtain ⟨rest, rfl⟩ := hclose.exists_eq_cons rfl
    exact hclose.modify (Scope.grows_foldl_reference _) List.mem_cons_self

/-- A scope that is not open stays as it is, and is not opened again. -/
theorem get?_of_notMem (h : scopes.Nested stack) (step : Step scopes request answer scopes')
    (hlt : id.index < scopes.size) (hid : id ∉ stack) :
    scopes'.get? id = scopes.get? id ∧ id.index < scopes'.size ∧ id ∉ answer.openScopes stack := by
  have hne {other : ScopeId} (hother : other ∈ stack) : id ≠ other := by
    rintro rfl
    exact hid hother
  have htail : id ∉ stack.tail := fun hmem => hid (List.mem_of_mem_tail hmem)
  cases step with
  | push kind =>
    have hnew : id ≠ (scopes.push kind).1 := fun heq => (heq ▸ hlt).false
    rw [get?_push, if_neg hnew, size_push]
    exact ⟨rfl, hlt.trans (Nat.lt_succ_self _), List.not_mem_cons_of_ne_of_not_mem hnew hid⟩
  | declare name isCurrent =>
    obtain ⟨rest, rfl⟩ := h.exists_eq_cons isCurrent
    exact ⟨get?_modify_of_ne (hne List.mem_cons_self) _, by rwa [size_modify], hid⟩
  | declareVar name isCurrent isOwner =>
    obtain ⟨rest, rfl⟩ := h.exists_eq_cons isCurrent
    exact ⟨get?_modify_of_ne (hne (mem_of_nearest h.linked isOwner)) _, by rwa [size_modify], hid⟩
  | reference use isCurrent =>
    obtain ⟨rest, rfl⟩ := h.exists_eq_cons isCurrent
    exact ⟨get?_modify_of_ne (hne List.mem_cons_self) _, by rwa [size_modify], hid⟩
  | popLast isCurrent found parentless =>
    obtain ⟨rest, rfl⟩ := h.exists_eq_cons isCurrent
    exact ⟨by rw [get?_close, if_neg (hne List.mem_cons_self)], by rwa [size_close], htail⟩
  | pop isCurrent found parent above =>
    obtain ⟨rest, rfl⟩ := h.exists_eq_cons isCurrent
    obtain ⟨rest, rfl⟩ := (h.close found parent).exists_eq_cons rfl
    have houter := hne (List.mem_cons_of_mem _ List.mem_cons_self)
    refine ⟨?_, by rwa [handOn, size_modify, size_close], htail⟩
    rw [handOn, get?_modify_of_ne houter, get?_close, if_neg (hne List.mem_cons_self)]

end Nested

/-! ### Answers -/

theorem exec_scope_eq_ok_iff {scope : Scope} :
    exec (ScopeEdit.scope id) scopes = (.ok scope, scopes') ↔
      scopes.get? id = some scope ∧ scopes' = scopes := by
  rw [ScopeEdit.scope, exec_bind_of_ok (exec_get _)]
  cases scopes.get? id <;> simp [eq_comm]

/-- The way out that a `var` declaration takes ends at its owner, if it ends. -/
theorem nearest_of_exec_varOwner {bound : Nat} {owner : ScopeId}
    (h : exec (ScopeEdit.varOwner bound id) scopes = (.ok owner, scopes')) :
    scopes.Nearest scopes.KeepsVars id owner := by
  induction bound generalizing id with
  | zero => cases h
  | succ bound ih =>
    rw [ScopeEdit.varOwner] at h
    obtain ⟨scope, _, hscope, hrest⟩ := exec_bind_eq_ok_iff.mp h
    obtain ⟨found, rfl⟩ := exec_scope_eq_ok_iff.mp hscope
    cases hparent : scope.parent with
    | none =>
      rw [hparent] at hrest
      cases hrest
      exact .here ⟨scope, found, .inr hparent⟩
    | some outer =>
      rw [hparent] at hrest
      cases hb : scope.kind.isFunctionBoundary with
      | true =>
        rw [hb] at hrest
        cases hrest
        exact .here ⟨scope, found, .inl hb⟩
      | false =>
        rw [hb] at hrest
        refine .up ?_ ⟨scope, found, hparent⟩ (ih hrest)
        rintro ⟨scope', found', hkeeps⟩
        obtain rfl := Option.some.inj (found.symm.trans found')
        simp [hb, hparent] at hkeeps

theorem exec_pop_of_ne {actual : ScopeId} (isCurrent : scopes.current? = some actual)
    (hne : actual ≠ id) :
    exec (ScopeEdit.pop id) scopes = (.error (.scopeMismatch id actual), scopes) := by
  rw [ScopeEdit.pop, exec_bind_of_ok (exec_current isCurrent), if_pos hne]
  exact exec_bind_of_error (exec_throw _ _)

theorem exec_onScopes_bind_of_error {α β : Type} {edit : ScopeEdit α} {f : α → Check β}
    {st : CheckState} {fault : Fault} (h : exec edit st.scopes = (.error fault, st.scopes)) :
    exec (Check.onScopes edit >>= f) st = (.error fault, st) :=
  exec_bind_of_error (by rw [Check.exec_onScopes, h])

/-- Without an open scope only a scope can be opened. -/
theorem handle_idle {st : CheckState} {request : Request} (isIdle : st.scopes.current? = none)
    (asks : ∀ kind, request ≠ .push kind) :
    handle st request = (⟨request, .error .noActiveScope⟩, st) := by
  have hidle {α : Type} (edit : ScopeId → ScopeEdit α) :
      exec (ScopeEdit.current >>= edit) st.scopes = (.error .noActiveScope, st.scopes) :=
    exec_bind_of_error (exec_current_of_none isIdle)
  suffices h : exec (perform request) st = (.error .noActiveScope, st) by rw [handle, h]
  cases request with
  | push kind => exact absurd rfl (asks kind)
  | pop id => exact exec_bind_of_error (exec_onScopes_bind_of_error (hidle _))
  | declare name | declareVar name | reference use => exact exec_onScopes_bind_of_error (hidle _)

theorem handle_mismatch {st : CheckState} {actual : ScopeId}
    (isCurrent : st.scopes.current? = some actual) (hne : actual ≠ id) :
    handle st (.pop id) = (⟨.pop id, .error (.scopeMismatch id actual)⟩, st) := by
  have hpop : exec (Check.pop id) st = (.error (.scopeMismatch id actual), st) :=
    exec_onScopes_bind_of_error (exec_pop_of_ne isCurrent hne)
  rw [handle, perform, exec_bind_of_error hpop]

theorem handle_pop_ok {st : CheckState} {closing : Closing}
    (h : exec (ScopeEdit.pop id) st.scopes = (.ok closing, scopes)) : ∃ journal,
    handle st (.pop id) = (⟨.pop id, .ok (.closed closing.escaped)⟩, ⟨scopes, journal⟩) := by
  obtain ⟨journal, hpop, -⟩ := Check.exec_pop h
  exact ⟨journal, by rw [handle, perform, exec_bind_of_ok hpop, exec_pure]⟩

theorem exec_onScopes_done {st : CheckState} {edit : ScopeEdit Unit}
    (h : exec edit st.scopes = (.ok (), scopes)) :
    exec (do Check.onScopes edit; return Answer.done) st = (.ok .done, { st with scopes }) := by
  rw [exec_bind_of_ok (Check.exec_onScopes_of_ok h), exec_pure]

namespace Nested

variable {st : CheckState} {stack rest : List ScopeId} (h : st.scopes.Nested stack)

include h

theorem handle_declare (isCurrent : st.scopes.current? = some id) (name : String) :
    handle st (.declare name) = (⟨.declare name, .ok .done⟩,
      { st with scopes := st.scopes.modify id (·.declare name) }) := by
  obtain ⟨scope, found⟩ := h.exists_get?_current isCurrent
  have hrun := exec_onScopes_done (exec_declare isCurrent found name)
  rw [handle, perform, Check.declare, hrun]

theorem handle_reference (isCurrent : st.scopes.current? = some id) (use : Reference) :
    handle st (.reference use) = (⟨.reference use, .ok .done⟩,
      { st with scopes := st.scopes.modify id (·.reference use) }) := by
  obtain ⟨scope, found⟩ := h.exists_get?_current isCurrent
  have hrun := exec_onScopes_done (exec_reference isCurrent found use)
  rw [handle, perform, Check.reference, hrun]

/-- **The search for the owner of a `var` declaration ends** before it has looked at more scopes
than there are, and the owner takes the name. -/
theorem exists_owner (isCurrent : st.scopes.current? = some id) :
    ∃ owner, st.scopes.Nearest st.scopes.KeepsVars id owner ∧
      (∀ bound ≥ st.scopes.size,
        exec (ScopeEdit.varOwner bound id) st.scopes = (.ok owner, st.scopes)) ∧
      ∀ name, handle st (.declareVar name) = (⟨.declareVar name, .ok .done⟩,
        { st with scopes := st.scopes.modify owner (·.declare name) }) := by
  obtain ⟨rest, rfl⟩ := h.exists_eq_cons isCurrent
  have hsize := h.linked.length_le_size h.nodup
  obtain ⟨owner, howner, hrun⟩ := h.linked.exec_varOwner hsize
  refine ⟨owner, nearest_of_exec_varOwner hrun, fun bound hbound => ?_, fun name => ?_⟩
  · obtain ⟨owner', howner', hrun'⟩ := h.linked.exec_varOwner (hsize.trans hbound)
    rw [hrun', Option.some.inj (howner'.symm.trans howner)]
  · obtain ⟨owner', howner', hdeclare⟩ := h.linked.exec_declareVar h.nodup isCurrent name
    obtain rfl := Option.some.inj (howner.symm.trans howner')
    rw [handle, perform, Check.declareVar, exec_onScopes_done hdeclare]

/-- **A request is refused and changes nothing, or it is a step.** No index leads out of the table,
no way out is endless, and nothing fails half-way. -/
theorem handle_cases (request : Request) :
    (∃ fault, handle st request = (⟨request, .error fault⟩, st) ∧ st.scopes.Refusal request fault) ∨
      ∃ answer scopes journal, handle st request = (⟨request, .ok answer⟩, ⟨scopes, journal⟩) ∧
        Step st.scopes request answer scopes := by
  by_cases hpush : ∃ kind, request = .push kind
  · obtain ⟨kind, rfl⟩ := hpush
    exact .inr ⟨_, _, _, rfl, .push kind⟩
  have asks : ∀ kind, request ≠ .push kind := fun kind heq => hpush ⟨kind, heq⟩
  cases hcurrent : st.scopes.current? with
  | none => exact .inl ⟨_, handle_idle hcurrent asks, .idle hcurrent asks⟩
  | some current =>
    cases request with
    | push kind => exact absurd rfl (asks kind)
    | declare name => exact .inr ⟨_, _, _, h.handle_declare hcurrent name, .declare name hcurrent⟩
    | declareVar name =>
      obtain ⟨owner, hnearest, -, hhandle⟩ := h.exists_owner hcurrent
      exact .inr ⟨_, _, _, hhandle name, .declareVar name hcurrent hnearest⟩
    | reference use =>
      exact .inr ⟨_, _, _, h.handle_reference hcurrent use, .reference use hcurrent⟩
    | pop id =>
      by_cases heq : current = id
      case neg => exact .inl ⟨_, handle_mismatch hcurrent heq, .mismatch hcurrent heq⟩
      subst heq
      obtain ⟨scope, found⟩ := h.exists_get?_current hcurrent
      cases hparent : scope.parent with
      | none =>
        obtain ⟨journal, hhandle⟩ := handle_pop_ok (exec_pop_last hcurrent found hparent)
        exact .inr ⟨_, _, journal, hhandle, .popLast hcurrent found hparent⟩
      | some outer =>
        obtain ⟨rest, rfl⟩ := h.exists_eq_cons hcurrent
        obtain ⟨around, above⟩ := (h.close found hparent).exists_get?_current rfl
        obtain ⟨journal, hhandle⟩ := handle_pop_ok (exec_pop hcurrent found hparent above)
        exact .inr ⟨_, _, journal, hhandle, .pop hcurrent found hparent above⟩

end Nested

/-! ### Histories -/

theorem closed_snoc {events : List Event} {event : Event} :
    Closed (events ++ [event]) id ↔
      Closed events id ∨ ∃ escaped, event = ⟨.pop id, .ok (.closed escaped)⟩ := by
  simp only [Closed, List.mem_append, List.mem_singleton, exists_or, eq_comm]

/-- The scopes that are not open are those that the history has closed. -/
structure Tracked (events : List Event) (scopes : Scopes) (stack : List ScopeId) : Prop
    extends scopes.Nested stack where
  closed_iff : ∀ id, Closed events id ↔ id.index < scopes.size ∧ id ∉ stack

namespace Tracked

variable {events : List Event} {stack : List ScopeId}

/-- The scopes that are not open after the innermost one is closed. -/
theorem closed_snoc_pop (h : Tracked events scopes stack) (isCurrent : scopes.current? = some id)
    {escaped : List Reference} (other : ScopeId) :
    Closed (events ++ [⟨.pop id, .ok (.closed escaped)⟩]) other ↔
      other.index < scopes.size ∧ other ∉ stack.tail := by
  obtain ⟨rest, rfl⟩ := h.exists_eq_cons isCurrent
  obtain ⟨scope, found⟩ := h.exists_get?_current isCurrent
  have hlt := index_lt_size found
  have hrest := (List.nodup_cons.mp h.nodup).1
  rw [closed_snoc, h.closed_iff, List.tail_cons, List.mem_cons, not_or]
  by_cases heq : other = id
  · simp [heq, hlt, hrest]
  · simp [heq, Ne.symm heq]

theorem step {request : Request} {answer : Answer} (h : Tracked events scopes stack)
    (step : Step scopes request answer scopes') :
    Tracked (events ++ [⟨request, .ok answer⟩]) scopes' (answer.openScopes stack) := by
  refine ⟨h.toNested.step step, fun other => ?_⟩
  cases step with
  | push kind =>
    have hnew : other = (scopes.push kind).1 ↔ other.index = scopes.size := ScopeId.ext_iff
    rw [closed_snoc, h.closed_iff]
    simp only [Event.mk.injEq, reduceCtorEq, false_and, exists_false, or_false, size_push,
      Answer.openScopes, List.mem_cons, not_or, hnew, ← and_assoc]
    exact and_congr_left fun _ => by omega
  | declare | declareVar | reference =>
    rw [closed_snoc, h.closed_iff, size_modify]
    simp [Answer.openScopes]
  | popLast isCurrent => rw [h.closed_snoc_pop isCurrent, size_close, Answer.openScopes]
  | pop isCurrent =>
    rw [h.closed_snoc_pop isCurrent, handOn, size_modify, size_close, Answer.openScopes]

theorem handle {st : CheckState} (h : Tracked events st.scopes stack) (request : Request) :
    ∃ stack', Tracked (events ++ [(handle st request).1]) (handle st request).2.scopes stack' := by
  rcases h.handle_cases request with ⟨fault, heq, -⟩ | ⟨answer, scopes, journal, heq, step⟩
  · rw [heq]
    exact ⟨stack, h.toNested, fun id => by rw [closed_snoc, h.closed_iff]; simp⟩
  · rw [heq]
    exact ⟨_, h.step step⟩

end Tracked

variable (st : CheckState) (requests : List Request)

theorem request_history : (history handle st requests).1.map Event.request = requests := by
  induction requests generalizing st with
  | nil => rfl
  | cons request requests ih =>
    rw [history, List.map_cons, ih]
    rfl

/-- Every history leaves nested scopes behind. -/
theorem tracked_history (journal : Journal) :
    ∃ stack, Tracked (history handle { journal } requests).1
      (history handle { journal } requests).2.scopes stack :=
  history_induction (P := fun events (st : CheckState) => ∃ stack, Tracked events st.scopes stack)
    ⟨[], nested_empty, fun id => by simp [Closed, size]⟩
    (fun _ _ request ⟨_, h⟩ => h.handle request)
    requests

/-- A scope that is not open stays as it is for good. -/
theorem Nested.get?_history {st : CheckState} {stack : List ScopeId} (h : st.scopes.Nested stack)
    (hlt : id.index < st.scopes.size) (hid : id ∉ stack) :
    (history handle st requests).2.scopes.get? id = st.scopes.get? id := by
  let P (_ : List Event) (st' : CheckState) : Prop := st'.scopes.get? id = st.scopes.get? id ∧
    id.index < st'.scopes.size ∧ ∃ stack, st'.scopes.Nested stack ∧ id ∉ stack
  suffices h : P (history handle st requests).1 (history handle st requests).2 from h.1
  refine history_induction ⟨rfl, hlt, stack, h, hid⟩ ?_ requests
  rintro _ st' request ⟨hget, hlt, stack, hnested, hid⟩
  rcases hnested.handle_cases request with ⟨fault, heq, -⟩ | ⟨answer, scopes, journal, heq, step⟩
  · rw [heq]
    exact ⟨hget, hlt, stack, hnested, hid⟩
  · rw [heq]
    obtain ⟨hsame, hlt', hid'⟩ := hnested.get?_of_notMem step hlt hid
    exact ⟨hsame.trans hget, hlt', _, hnested.step step, hid'⟩

/-! ### Where uses get to -/

/-- Where a use that was pending in a scope has got to. -/
inductive Accounted (events : List Event) (scopes : Scopes) (name : String) : ScopeId → Prop where
  | pending {id : ScopeId} (isOpen : ¬ Closed events id) (isPending : scopes.Pending id name) :
      Accounted events scopes name id
  | declared {id : ScopeId} (isClosed : Closed events id) (declares : scopes.Declares id name) :
      Accounted events scopes name id
  | escaped {id : ScopeId} {escaped : List Reference} (parentless : scopes.Parentless id)
      (returned : ⟨.pop id, .ok (.closed escaped)⟩ ∈ events)
      (mem : name ∈ escaped.map Reference.name) : Accounted events scopes name id
  | up {id outer : ScopeId} (isClosed : Closed events id) (around : scopes.Around id outer)
      (above : Accounted events scopes name outer) : Accounted events scopes name id

theorem Closed.mono {events events' : List Event} (sub : events ⊆ events') (h : Closed events id) :
    Closed events' id :=
  h.imp fun _ returned => sub returned

/-- What happens to a use while the scopes are changed: it is enough that one knows what happens to
it where it is pending. -/
theorem Accounted.mono {events events' : List Event} (keeps : scopes.Keeps scopes')
    (sub : events ⊆ events')
    (pending : ∀ id, ¬ Closed events id →
      scopes.Pending id name → Accounted events' scopes' name id)
    (h : Accounted events scopes name s) : Accounted events' scopes' name s := by
  induction h with
  | pending isOpen isPending => exact pending _ isOpen isPending
  | declared isClosed declares => exact .declared (isClosed.mono sub) (keeps.declares declares)
  | escaped parentless returned mem =>
    exact .escaped (keeps.parentless parentless) (sub returned) mem
  | up isClosed around _ ih => exact .up (isClosed.mono sub) (keeps.around around) ih

/-- Uses that are pending stay so while a scope grows. -/
theorem Pending.modify {f : Scope → Scope} (hf : ∀ scope : Scope, scope.Grows (f scope))
    {other : ScopeId} (h : scopes.Pending other name) :
    (scopes.modify id f).Pending other name := by
  obtain ⟨scope, found, hpending⟩ := h
  rw [Pending, get?_modify, found]
  split
  · exact ⟨_, rfl, (hf scope).pending name hpending⟩
  · exact ⟨_, rfl, hpending⟩

theorem Pending.push (kind : ScopeKind) (h : scopes.Pending id name) :
    (scopes.push kind).2.Pending id name := by
  obtain ⟨scope, found, hpending⟩ := h
  exact ⟨scope, by rw [get?_push, if_neg (ne_push_of_get? found kind), found], hpending⟩

theorem Pending.close {other : ScopeId} {parent : Option ScopeId} (hne : other ≠ id)
    (h : scopes.Pending other name) : (scopes.close id parent).Pending other name := by
  obtain ⟨scope, found, hpending⟩ := h
  exact ⟨scope, by rw [get?_close, if_neg hne, found], hpending⟩

/-- A scope has all uses that are handed on to it. -/
theorem pending_handOn {uses : List Reference} {use : Reference} (hu : use ∈ uses)
    {scope : Scope} (found : scopes.get? id = some scope) :
    (scopes.handOn id (scope.newUses uses)).Pending id use.name := by
  refine ⟨_, by rw [handOn, get?_modify_self, found]; rfl, ?_⟩
  by_cases hpending : (scope.pending? use.name).isSome
  · exact (Scope.grows_foldl_reference _ scope).pending _ hpending
  · refine Scope.isSome_pending?_foldl_reference (List.mem_filter.mpr ⟨hu, ?_⟩) scope
    simpa using hpending

/-- A use that is pending in a scope is bound by the scope or left over when it is closed. -/
theorem Pending.declares_or_leftover {scope : Scope} (found : scopes.get? id = some scope)
    (h : scopes.Pending id name) :
    scopes.Declares id name ∨ ∃ use ∈ scope.unresolved, use.name = name := by
  obtain ⟨scope', found', hpending⟩ := h
  obtain rfl := Option.some.inj (found.symm.trans found')
  cases hdeclares : scope.declares name with
  | true => exact .inl ⟨scope, found, hdeclares⟩
  | false => exact .inr (Scope.exists_mem_unresolved hpending hdeclares)

/-- **No step loses a use.** -/
theorem Step.accounted {request : Request} {answer : Answer} {events : List Event}
    {stack : List ScopeId} (step : Step scopes request answer scopes')
    (tracked : Tracked events scopes stack) (h : Accounted events scopes name s) :
    Accounted (events ++ [⟨request, .ok answer⟩]) scopes' name s := by
  refine h.mono step.keeps (List.subset_append_left _ _) fun id isOpen hpending => ?_
  -- Only closing the scope itself moves the use.
  have hopen (hne : request ≠ .pop id) : ¬ Closed (events ++ [⟨request, .ok answer⟩]) id := by
    rw [closed_snoc, not_or]
    exact ⟨isOpen, fun ⟨_, heq⟩ => hne (congrArg Event.request heq)⟩
  cases step with
  | push kind => exact .pending (hopen (by simp)) (hpending.push kind)
  | declare other => exact .pending (hopen (by simp)) (hpending.modify (·.grows_declare other))
  | declareVar other => exact .pending (hopen (by simp)) (hpending.modify (·.grows_declare other))
  | reference use => exact .pending (hopen (by simp)) (hpending.modify (·.grows_reference use))
  | @popLast closed scope isCurrent found parentless =>
    by_cases heq : closed = id
    · subst heq
      have hlast : (⟨.pop closed, .ok (.closed scope.unresolved)⟩ : Event) ∈
          events ++ [⟨.pop closed, .ok (.closed scope.unresolved)⟩] := by simp
      rcases hpending.declares_or_leftover found with hdeclares | ⟨use, hmem, rfl⟩
      · exact .declared ⟨_, hlast⟩ (Keeps.close.declares hdeclares)
      · exact .escaped (Keeps.close.parentless ⟨scope, found, parentless⟩) hlast
          (List.mem_map_of_mem hmem)
    · exact .pending (hopen (by simpa using heq)) (hpending.close (Ne.symm heq))
  | @pop closed outer scope around isCurrent found parent above =>
    by_cases heq : closed = id
    · subst heq
      have hclosed : Closed (events ++ [⟨.pop closed, .ok (.closed [])⟩]) closed := ⟨[], by simp⟩
      rcases hpending.declares_or_leftover found with hdeclares | ⟨use, hmem, rfl⟩
      · exact .declared hclosed (Keeps.handOn.declares (Keeps.close.declares hdeclares))
      · refine .up hclosed (Keeps.handOn.around (Keeps.close.around ⟨scope, found, parent⟩)) ?_
        refine .pending (fun houter => ?_) (pending_handOn hmem above)
        obtain ⟨rest, rfl⟩ := tracked.exists_eq_cons isCurrent
        obtain ⟨rest, rfl⟩ := (tracked.close found parent).exists_eq_cons rfl
        exact ((tracked.closed_snoc_pop isCurrent outer).mp houter).2 List.mem_cons_self
    · exact .pending (hopen (by simpa using heq))
        ((hpending.close (Ne.symm heq)).modify (Scope.grows_foldl_reference _))

/-- **No history loses a use.** -/
theorem Accounted.history {past : List Event} {st : CheckState} {stack : List ScopeId}
    (tracked : Tracked past st.scopes stack) (h : Accounted past st.scopes name s)
    (requests : List Request) :
    Accounted (past ++ (history handle st requests).1) (history handle st requests).2.scopes name
      s := by
  let P (events : List Event) (st' : CheckState) : Prop :=
    (∃ stack, Tracked (past ++ events) st'.scopes stack) ∧
      Accounted (past ++ events) st'.scopes name s
  suffices h : P (Declass.history handle st requests).1 (Declass.history handle st requests).2 from
    h.2
  refine history_induction ⟨⟨stack, by simpa using tracked⟩, by simpa using h⟩ ?_ requests
  rintro events st' request ⟨⟨stack, htracked⟩, haccounted⟩
  simp only [P, ← List.append_assoc]
  refine ⟨htracked.handle request, ?_⟩
  rcases htracked.handle_cases request with ⟨fault, heq, -⟩ | ⟨answer, scopes, journal, heq, step⟩
  · rw [heq]
    refine haccounted.mono (fun _ scope found => ⟨scope, found, .refl scope⟩)
      (List.subset_append_left _ _) fun id isOpen hpending => .pending ?_ hpending
    rw [closed_snoc]
    simpa using isOpen
  · rw [heq]
    exact step.accounted htracked haccounted

/-- A use of a name that was pending in a scope has not been lost: a scope from there on outwards
that was closed declares the name, or the nearest scope that is still open has a use of the name
pending, or the outermost scope returned one when it was closed. -/
def Conserved (events : List Event) (scopes : Scopes) (s : ScopeId) (name : String) : Prop :=
  (∃ id, Relation.ReflTransGen scopes.Around s id ∧ Closed events id ∧ scopes.Declares id name) ∨
    (∃ id, scopes.Nearest (¬ Closed events ·) s id ∧ scopes.Pending id name) ∨
    ∃ root escaped, Relation.ReflTransGen scopes.Around s root ∧ scopes.Parentless root ∧
      ⟨.pop root, .ok (.closed escaped)⟩ ∈ events ∧ name ∈ escaped.map Reference.name

theorem Accounted.conserved {events : List Event} (h : Accounted events scopes name s) :
    Conserved events scopes s name := by
  induction h with
  | pending isOpen isPending => exact .inr (.inl ⟨_, .here isOpen, isPending⟩)
  | declared isClosed declares => exact .inl ⟨_, .refl, isClosed, declares⟩
  | escaped parentless returned mem => exact .inr (.inr ⟨_, _, .refl, parentless, returned, mem⟩)
  | up isClosed around _ ih =>
    rcases ih with ⟨id, hpath, hid⟩ | ⟨id, hnearest, hid⟩ | ⟨root, escaped, hpath, hroot⟩
    · exact .inl ⟨id, .head around hpath, hid⟩
    · exact .inr (.inl ⟨id, .up (not_not_intro isClosed) around hnearest, hid⟩)
    · exact .inr (.inr ⟨root, escaped, .head around hpath, hroot⟩)

/-- A use of the name was pending in the scope at some time. -/
def Recorded (journal : Journal) (requests : List Request) (s : ScopeId) (name : String) : Prop :=
  ∃ before after, requests = before ++ after ∧
    (history handle { journal } before).2.scopes.Pending s name

theorem Recorded.conserved {journal : Journal} (h : Recorded journal requests s name) :
    Conserved (history handle { journal } requests).1 (history handle { journal } requests).2.scopes
      s name := by
  obtain ⟨before, after, rfl, hpending⟩ := h
  obtain ⟨stack, tracked⟩ := tracked_history before journal
  have hopen : ¬ Closed (history handle { journal } before).1 s := fun hclosed =>
    tracked.settled s ((tracked.closed_iff s).mp hclosed).2 name hpending
  have haccounted : Accounted _ _ name s := .pending hopen hpending
  rw [history_append]
  exact (haccounted.history tracked after).conserved

theorem declares_modify {scope : Scope} (found : scopes.get? id = some scope) (name : String) :
    (scopes.modify id (·.declare name)).Declares id name := by
  refine ⟨scope.declare name, by rw [get?_modify_self, found, Option.map_some], ?_⟩
  rw [Scope.declare]
  split
  case isTrue h => exact h
  case isFalse => simp [Scope.declares]

theorem pending_modify {scope : Scope} (found : scopes.get? id = some scope) (use : Reference) :
    (scopes.modify id (·.reference use)).Pending id use.name :=
  ⟨scope.reference use, by rw [get?_modify_self, found, Option.map_some],
    scope.isSome_pending?_reference use⟩

theorem Nearest.exists_get? {owner : ScopeId} (h : scopes.Nearest scopes.KeepsVars id owner) :
    ∃ scope, scopes.get? owner = some scope := by
  induction h with
  | here holds => exact ⟨_, holds.choose_spec.1⟩
  | up _ _ _ ih => exact ih

/-- **The laws of the table of scopes.** After every history that starts with no scopes, parents are
older than their scopes and the innermost open scope is there. The search for the owner of a `var`
declaration ends at the nearest scope on the way out that keeps it, which then declares the name.
Other declarations and uses stay where they are made. A request is refused only if no scope is open
or if it is to close another scope than the innermost one, and then it changes nothing. Scopes that
were closed stay as they are, and no use is lost. -/
theorem history_conserves (journal : Journal) (requests : List Request) :
    let events := (history handle { journal } requests).1
    let st := (history handle { journal } requests).2
    events.map Event.request = requests ∧
      (∀ id outer, st.scopes.Around id outer → outer.index < id.index) ∧
      (∀ id ∈ st.scopes.current?, id.index < st.scopes.size) ∧
      (∀ name, match st.scopes.current? with
        | none => handle st (.declareVar name) = (⟨.declareVar name, .error .noActiveScope⟩, st)
        | some id => ∃ owner, st.scopes.Nearest st.scopes.KeepsVars id owner ∧
            (∀ bound ≥ st.scopes.size,
              exec (ScopeEdit.varOwner bound id) st.scopes = (.ok owner, st.scopes)) ∧
            handle st (.declareVar name) = (⟨.declareVar name, .ok .done⟩,
              { st with scopes := st.scopes.modify owner (·.declare name) }) ∧
            (handle st (.declareVar name)).2.scopes.Declares owner name) ∧
      (∀ name, ∀ id ∈ st.scopes.current?, (handle st (.declare name)).1.outcome = .ok .done ∧
        (handle st (.declare name)).2.scopes.Declares id name) ∧
      (∀ use, ∀ id ∈ st.scopes.current?, (handle st (.reference use)).1.outcome = .ok .done ∧
        (handle st (.reference use)).2.scopes.Pending id use.name) ∧
      (∀ request fault,
        (handle st request).1.outcome = .error fault ↔ st.scopes.Refusal request fault) ∧
      (∀ request fault, (handle st request).1.outcome = .error fault → (handle st request).2 = st) ∧
      (∀ id, Closed events id → ∀ later,
        (history handle st later).2.scopes.get? id = st.scopes.get? id) ∧
      ∀ s name, Recorded journal requests s name → Conserved events st.scopes s name := by
  intro events st
  obtain ⟨stack, tracked⟩ :
      ∃ stack, Tracked events st.scopes stack := tracked_history requests journal
  have hcurrent : ∀ id ∈ st.scopes.current?, ∃ scope, st.scopes.get? id = some scope :=
    fun id hid => tracked.exists_get?_current hid
  refine ⟨request_history _ _, tracked.parent_lt, fun id hid => ?_, fun name => ?_,
    fun name id hid => ?_, fun use id hid => ?_,
    fun request fault => ?_, fun request fault hfault => ?_,
    fun id hid later => ?_, fun s name hrecorded => hrecorded.conserved⟩
  · obtain ⟨scope, found⟩ := hcurrent id hid
    exact index_lt_size found
  · split
    case h_1 hidle => exact handle_idle hidle (by simp)
    case h_2 id hid =>
      obtain ⟨owner, hnearest, hbound, hhandle⟩ := tracked.exists_owner hid
      obtain ⟨scope, found⟩ := hnearest.exists_get?
      refine ⟨owner, hnearest, hbound, hhandle name, ?_⟩
      rw [hhandle name]
      exact declares_modify found name
  · obtain ⟨scope, found⟩ := hcurrent id hid
    rw [tracked.handle_declare hid name]
    exact ⟨rfl, declares_modify found name⟩
  · obtain ⟨scope, found⟩ := hcurrent id hid
    rw [tracked.handle_reference hid use]
    exact ⟨rfl, pending_modify found use⟩
  · obtain ⟨fault', heq, hrefusal⟩ | ⟨answer, scopes, _, heq, step⟩ :=
      tracked.handle_cases request
    · rw [heq]
      constructor
      · rintro ⟨⟩
        exact hrefusal
      · exact fun hrefusal' => congrArg Except.error (hrefusal.fault_eq hrefusal')
    · rw [heq]
      exact ⟨fun hfault => (by cases hfault), fun hrefusal => absurd hrefusal step.not_refusal⟩
  · rcases tracked.handle_cases request with ⟨fault', heq, -⟩ | ⟨answer, scopes, _, heq, -⟩
    · rw [heq]
    · rw [heq] at hfault
      cases hfault
  · obtain ⟨hlt, hnot⟩ := (tracked.closed_iff id).mp hid
    exact tracked.get?_history later hlt hnot

/-- A use in a catch clause that is bound nowhere, among requests some of which are refused. -/
theorem history_conserves_catchClause :
    let requests : List Request := [.push .root, .push .catchClause, .reference ⟨"x", none⟩,
      .declareVar "y", .pop ⟨0⟩, .pop ⟨1⟩, .pop ⟨0⟩, .declare "x"]
    let events := (history handle {} requests).1
    let st := (history handle {} requests).2
    Recorded {} requests ⟨1⟩ "x" ∧ Closed events ⟨1⟩ ∧
      ⟨.pop ⟨0⟩, .ok (.closed [⟨"x", none⟩])⟩ ∈ events ∧ Conserved events st.scopes ⟨1⟩ "x" := by
  intro requests events st
  have hrecorded : Recorded {} requests ⟨1⟩ "x" :=
    ⟨requests.take 3, requests.drop 3, rfl, _, rfl, rfl⟩
  refine ⟨hrecorded, ⟨[], ?_⟩, ?_,
    (history_conserves {} requests).2.2.2.2.2.2.2.2.2 ⟨1⟩ "x" hrecorded⟩
  · decide +kernel
  · decide +kernel

end Scopes

end Declass
