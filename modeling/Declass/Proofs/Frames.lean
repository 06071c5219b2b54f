import Mathlib.Data.Finset.Lattice.Lemmas
import Declass.Proofs.Run
import Declass.Scope.Table

/-!
# Open scopes as frames

A table of scopes keeps the first pending use of each name and forgets the others. Here the open
scopes are seen as frames, innermost first: a frame has the set of names that a scope binds and the
list of *all* uses that have come up in it and are not known to be bound further inside. A scope
shows a frame if it agrees with it on the names and holds the first use of each name.

A table names its innermost open scope only. The others are a list of scopes each of which is the
parent of the one before, and with such a list in hand no edit of the table fails.

## Main definitions

* `Firsts` — a list that holds the first use of each name
* `Scopes.Linked` — scopes each of which is the parent of the one before
* `Frame`, `Scope.Shows`, `Scopes.Shows`
* `bindVars` — what a `var` declaration does to the frames

## Main results

* `Scopes.Linked.exec_varOwner` — the way out of an open scope ends
* `Scopes.Shows.push`, `.declare`, `.declareVar`, `.reference`, `.pop`, `.pop_last` — the operations
  on a table of scopes, as operations on frames
-/

namespace Declass

/-! ### First uses -/

/-- The first use of a name. -/
def firstUse (uses : List Reference) (name : String) : Option Reference :=
  uses.find? (·.name == name)

theorem firstUse_append (us vs : List Reference) (name : String) :
    firstUse (us ++ vs) name = (firstUse us name).or (firstUse vs name) := by
  rw [firstUse, List.find?_append, firstUse, firstUse]

theorem firstUse_filter (us : List Reference)
    (p : String → Prop) [DecidablePred p] (name : String) :
    firstUse (us.filter fun use => p use.name) name =
      if p name then firstUse us name else none := by
  induction us with
  | nil => simp [firstUse]
  | cons u us ih =>
    simp only [firstUse] at ih ⊢
    grind

theorem name_of_firstUse {us : List Reference} {name : String} {use : Reference}
    (h : firstUse us name = some use) : use.name = name := by
  simpa using List.find?_some h

theorem isSome_firstUse {us : List Reference} {name : String} :
    (firstUse us name).isSome ↔ ∃ use ∈ us, use.name = name := by
  simp [firstUse]

/-- `firsts` holds the first use of each name that is used. -/
structure Firsts (firsts uses : List Reference) : Prop where
  nodup : (firsts.map Reference.name).Nodup
  mem_iff : ∀ use, use ∈ firsts ↔ firstUse uses use.name = some use

namespace Firsts

variable {firsts us : List Reference}

theorem firstUse_eq (h : Firsts firsts us) (name : String) :
    firstUse firsts name = firstUse us name := by
  have hfound {use : Reference} (hu : firstUse us name = some use) :
      firstUse firsts name = some use := by
    have hname := name_of_firstUse hu
    have hmem : use ∈ firsts := (h.mem_iff use).mpr (by rw [hname, hu])
    obtain ⟨first, hfirst⟩ := Option.isSome_iff_exists.mp (isSome_firstUse.mpr ⟨use, hmem, hname⟩)
    have hfirst' : first ∈ firsts := List.mem_of_find?_eq_some hfirst
    rw [hfirst, List.inj_on_of_nodup_map h.nodup hfirst' hmem
      ((name_of_firstUse hfirst).trans hname.symm)]
  cases hu : firstUse us name with
  | some use => exact hfound hu
  | none =>
    rw [← Option.not_isSome_iff_eq_none, isSome_firstUse]
    rintro ⟨use, hmem, rfl⟩
    rw [(h.mem_iff use).mp hmem] at hu
    cases hu

/-- The first uses have the names of all uses. -/
theorem mem_names_iff (h : Firsts firsts us) {name : String} :
    name ∈ firsts.map Reference.name ↔ ∃ use ∈ us, use.name = name := by
  rw [List.mem_map, ← isSome_firstUse, h.firstUse_eq, isSome_firstUse]

theorem congr (h : Firsts firsts us) {vs : List Reference}
    (heq : ∀ name, firstUse vs name = firstUse us name) : Firsts firsts vs :=
  ⟨h.nodup, fun use => by rw [heq, h.mem_iff]⟩

theorem perm (h : Firsts firsts us) {firsts' : List Reference} (hp : firsts'.Perm firsts) :
    Firsts firsts' us :=
  ⟨(hp.map _).nodup_iff.mpr h.nodup, fun use => hp.mem_iff.trans (h.mem_iff use)⟩

theorem filter (h : Firsts firsts us) (p : String → Prop) [DecidablePred p] :
    Firsts (firsts.filter fun use => p use.name) (us.filter fun use => p use.name) where
  nodup := h.nodup.sublist (List.filter_sublist.map _)
  mem_iff use := by
    rw [List.mem_filter, h.mem_iff, firstUse_filter]
    by_cases hp : p use.name <;> simp [hp]

/-- One more use is remembered if it is the first of its name. -/
theorem snoc (h : Firsts firsts us) (use : Reference) :
    Firsts (if (firstUse firsts use.name).isSome then firsts else firsts ++ [use])
      (us ++ [use]) := by
  rw [h.firstUse_eq]
  have hself (name : String) :
      firstUse [use] name = if use.name = name then some use else none := by
    simp [firstUse]
  split
  case isTrue hsome =>
    refine h.congr fun name => ?_
    rw [firstUse_append, hself]
    cases hfirst : firstUse us name with
    | some first => rfl
    | none => rw [if_neg (by rintro rfl; simp [hfirst] at hsome)]; rfl
  case isFalse hnone =>
    have hnone : firstUse us use.name = none := Option.not_isSome_iff_eq_none.mp hnone
    refine ⟨?_, fun other => ?_⟩
    · rw [List.map_append, List.nodup_append]
      refine ⟨h.nodup, List.nodup_singleton _, ?_⟩
      rintro _ hn _ hu rfl
      obtain ⟨other, hother, hname⟩ := List.mem_map.mp hn
      rw [List.map_singleton, List.mem_singleton] at hu
      have := (h.mem_iff other).mp hother
      rw [hname, hu, hnone] at this
      cases this
    · rw [List.mem_append, h.mem_iff, List.mem_singleton, firstUse_append, hself]
      by_cases hname : use.name = other.name
      · rw [← hname, hnone]
        simp [eq_comm]
      · rw [if_neg hname, Option.or_none, or_iff_left]
        rintro rfl
        exact hname rfl

end Firsts

namespace Scope

@[simp] theorem parent_declare (scope : Scope) (name : String) :
    (scope.declare name).parent = scope.parent := by
  rw [declare]
  split <;> rfl

@[simp] theorem parent_reference (scope : Scope) (use : Reference) :
    (scope.reference use).parent = scope.parent := by
  rw [reference]
  split <;> rfl

theorem parent_foldl_reference (uses : List Reference) (scope : Scope) :
    (uses.foldl reference scope).parent = scope.parent := by
  induction uses generalizing scope with
  | nil => rfl
  | cons use uses ih => rw [List.foldl_cons, ih, parent_reference]

end Scope

/-! ### Frames -/

/-- An open scope: what it binds so far, and all uses in it that are not bound further inside. -/
structure Frame where
  kind : ScopeKind
  names : Finset String := ∅
  uses : List Reference := []

namespace Frame

/-- The frame with more names. -/
def bind (frame : Frame) (names : Finset String) : Frame :=
  { frame with names := frame.names ∪ names }

/-- The frame with more uses. -/
def use (frame : Frame) (uses : List Reference) : Frame :=
  { frame with uses := frame.uses ++ uses }

/-- The uses that the frame does not bind. -/
def unresolved (frame : Frame) : List Reference :=
  frame.uses.filter fun use => use.name ∉ frame.names

end Frame

/-- The frames after names have been bound as `var` does. -/
def bindVars (names : Finset String) : List Frame → List Frame
  | [] => []
  | frame :: frames =>
    if frame.kind.isFunctionBoundary then frame.bind names :: frames
    else frame :: bindVars names frames

/-- A scope agrees with a frame. -/
structure Scope.Shows (scope : Scope) (frame : Frame) : Prop where
  kind : scope.kind = frame.kind
  declares : ∀ name, scope.declares name = true ↔ name ∈ frame.names
  pending : Firsts scope.pending frame.uses

namespace Scope.Shows

variable {scope : Scope} {frame : Frame}

theorem declare (h : scope.Shows frame) (name : String) :
    (scope.declare name).Shows (frame.bind {name}) := by
  have hmem (other : String) : other ∈ scope.declared ↔ other ∈ frame.names := by
    rw [← h.declares, Scope.declares, decide_eq_true_iff]
  refine ⟨?_, fun other => ?_, ?_⟩
  · rw [Scope.declare]
    split <;> exact h.kind
  · rw [Scope.declare, Frame.bind, Finset.mem_union, Finset.mem_singleton, ← hmem]
    split
    case isTrue hd =>
      rw [h.declares, ← hmem] at hd
      rw [h.declares, ← hmem, or_iff_left_of_imp]
      rintro rfl
      exact hd
    case isFalse hd => simp [Scope.declares]
  · rw [Scope.declare]
    split <;> exact h.pending

theorem reference (h : scope.Shows frame) (use : Reference) :
    (scope.reference use).Shows (frame.use [use]) := by
  refine ⟨?_, fun name => ?_, ?_⟩
  · rw [Scope.reference]
    split <;> exact h.kind
  · rw [Scope.reference]
    split <;> exact h.declares name
  · have hpending := h.pending.snoc use
    rw [Scope.reference]
    split
    case isTrue hsome => rwa [if_pos (by exact hsome)] at hpending
    case isFalse hnone => rwa [if_neg (by exact hnone)] at hpending

theorem congr {uses uses' : List Reference} (h : scope.Shows (frame.use uses))
    (heq : ∀ name, firstUse (frame.uses ++ uses') name = firstUse (frame.uses ++ uses) name) :
    scope.Shows (frame.use uses') :=
  ⟨h.kind, h.declares, h.pending.congr heq⟩

theorem foldl_reference (uses : List Reference) {scope : Scope} {frame : Frame}
    (h : scope.Shows frame) : (uses.foldl Scope.reference scope).Shows (frame.use uses) := by
  induction uses generalizing scope frame with
  | nil => simpa [Frame.use] using h
  | cons use uses ih => simpa [Frame.use] using ih (h.reference use)

/-- Closing a scope finds the first unresolved use of each name. -/
theorem unresolved (h : scope.Shows frame) : Firsts scope.unresolved frame.unresolved := by
  have hfilter := h.pending.filter fun name => name ∉ frame.names
  refine hfilter.perm ((List.mergeSort_perm _ _).trans ?_)
  refine List.Perm.of_eq (List.filter_congr fun use _ => ?_)
  rw [Bool.eq_iff_iff, Bool.not_eq_true', ← Bool.not_eq_true, h.declares, decide_eq_true_iff]

end Scope.Shows

/-! ### Tables -/

namespace Scopes

variable {scopes scopes' : Scopes} {id outer : ScopeId} {stack rest : List ScopeId}
  {frame frame' : Frame} {frames : List Frame} {scope : Scope}

theorem get?_modify_self (scopes : Scopes) (id : ScopeId) (f : Scope → Scope) :
    (scopes.modify id f).get? id = (scopes.get? id).map f := by
  simp [modify, get?, Array.getElem?_modify]

theorem get?_modify_of_ne {id other : ScopeId} (h : other ≠ id) (f : Scope → Scope) :
    (scopes.modify id f).get? other = scopes.get? other := by
  have hindex : id.index ≠ other.index := fun heq => h (ScopeId.ext heq.symm)
  simp [modify, get?, Array.getElem?_modify, hindex]

/-- A change of a scope is seen at its index only. -/
theorem get?_modify (scopes : Scopes) (id other : ScopeId) (f : Scope → Scope) :
    (scopes.modify id f).get? other =
      if other = id then (scopes.get? other).map f else scopes.get? other := by
  split
  case isTrue h => rw [h, get?_modify_self]
  case isFalse h => exact get?_modify_of_ne h f

theorem index_lt_size (found : scopes.get? id = some scope) : id.index < scopes.size :=
  (Array.getElem?_eq_some_iff.mp found).1

/-- The index of a new scope is that of no other, and the other scopes stay as they are. -/
theorem get?_push (scopes : Scopes) (kind : ScopeKind) (id : ScopeId) :
    (scopes.push kind).2.get? id =
      if id = (scopes.push kind).1 then some { kind, parent := scopes.current? }
      else scopes.get? id := by
  have hiff : id.index = scopes.table.size ↔ id = (scopes.push kind).1 := ScopeId.ext_iff.symm
  simp only [get?, ← hiff]
  exact Array.getElem?_push

theorem ne_push_of_get? (found : scopes.get? id = some scope) (kind : ScopeKind) :
    id ≠ (scopes.push kind).1 :=
  fun heq => (heq ▸ index_lt_size found).false

/-! ### Edits -/

theorem exec_current (h : scopes.current? = some id) :
    exec ScopeEdit.current scopes = (.ok id, scopes) := by
  simp [ScopeEdit.current, exec_bind, h]

theorem exec_current_of_none (h : scopes.current? = none) :
    exec ScopeEdit.current scopes = (.error .noActiveScope, scopes) := by
  simp [ScopeEdit.current, exec_bind, h]

theorem exec_scope (found : scopes.get? id = some scope) :
    exec (ScopeEdit.scope id) scopes = (.ok scope, scopes) := by
  simp [ScopeEdit.scope, exec_bind, found]

theorem exec_change (found : scopes.get? id = some scope) (f : Scope → Scope) :
    exec (ScopeEdit.change id f) scopes = (.ok (), scopes.modify id f) := by
  rw [ScopeEdit.change, exec_bind_of_ok (exec_scope found), exec_modify]

theorem exec_declare (isCurrent : scopes.current? = some id) (found : scopes.get? id = some scope)
    (name : String) :
    exec (ScopeEdit.declare name) scopes = (.ok (), scopes.modify id (·.declare name)) := by
  rw [ScopeEdit.declare, exec_bind_of_ok (exec_current isCurrent), exec_change found]

theorem exec_reference (isCurrent : scopes.current? = some id)
    (found : scopes.get? id = some scope) (use : Reference) :
    exec (ScopeEdit.reference use) scopes = (.ok (), scopes.modify id (·.reference use)) := by
  rw [ScopeEdit.reference, exec_bind_of_ok (exec_current isCurrent), exec_change found]

/-- Closing a scope that has no parent. -/
theorem exec_pop_last (isCurrent : scopes.current? = some id) (found : scopes.get? id = some scope)
    (parentless : scope.parent = none) :
    exec (ScopeEdit.pop id) scopes = (.ok ⟨scope.unresolved, none⟩, scopes.close id none) := by
  rw [ScopeEdit.pop, exec_bind_of_ok (exec_current isCurrent)]
  simp only [ne_eq, not_true_eq_false, if_false]
  rw [exec_bind_of_ok (exec_scope found), exec_bind_of_ok (exec_modify _ _), parentless]
  rfl

/-- Closing a scope whose parent is in the table once it is closed. -/
theorem exec_pop {around : Scope} (isCurrent : scopes.current? = some id)
    (found : scopes.get? id = some scope) (parent : scope.parent = some outer)
    (above : (scopes.close id (some outer)).get? outer = some around) :
    let uses := around.newUses scope.unresolved
    exec (ScopeEdit.pop id) scopes = (.ok ⟨scope.unresolved, some (outer, uses)⟩,
      (scopes.close id (some outer)).handOn outer uses) := by
  rw [ScopeEdit.pop, exec_bind_of_ok (exec_current isCurrent)]
  simp only [ne_eq, not_true_eq_false, if_false]
  rw [exec_bind_of_ok (exec_scope found), exec_bind_of_ok (exec_modify _ _), parent]
  rw [exec_bind_of_ok (exec_scope above), exec_bind_of_ok (exec_modify _ _), exec_pure]

/-! ### The open scopes -/

/-- The scopes are each the parent of the one before, and the last one has no parent. -/
def Linked (scopes : Scopes) : List ScopeId → Prop
  | [] => True
  | id :: rest =>
    (∃ scope, scopes.get? id = some scope ∧ scope.parent = rest.head?) ∧ Linked scopes rest

theorem Linked.exists_get? (h : scopes.Linked stack) (hid : id ∈ stack) :
    ∃ scope, scopes.get? id = some scope := by
  induction stack with
  | nil => cases hid
  | cons first rest ih =>
    obtain ⟨⟨scope, found, -⟩, hrest⟩ := h
    rcases List.mem_cons.mp hid with rfl | hid
    · exact ⟨scope, found⟩
    · exact ih hrest hid

/-- Scopes that keep their parents stay linked. -/
theorem Linked.mono (h : scopes.Linked stack)
    (keeps : ∀ id ∈ stack, ∀ scope, scopes.get? id = some scope →
      ∃ scope', scopes'.get? id = some scope' ∧ scope'.parent = scope.parent) :
    scopes'.Linked stack := by
  induction stack with
  | nil => trivial
  | cons id rest ih =>
    obtain ⟨⟨scope, found, hparent⟩, hrest⟩ := h
    obtain ⟨hid, hkeeps⟩ := List.forall_mem_cons.mp keeps
    obtain ⟨scope', found', hparent'⟩ := hid scope found
    exact ⟨⟨scope', found', hparent'.trans hparent⟩, ih hrest hkeeps⟩

theorem Linked.modify (h : scopes.Linked stack) (id : ScopeId) {f : Scope → Scope}
    (hf : ∀ scope, (f scope).parent = scope.parent) : (scopes.modify id f).Linked stack := by
  refine h.mono fun other _ scope found => ?_
  rw [get?_modify, found]
  split
  · exact ⟨f scope, rfl, hf scope⟩
  · exact ⟨scope, rfl, rfl⟩

theorem Linked.close (h : scopes.Linked stack) (id : ScopeId) (parent : Option ScopeId) :
    (scopes.close id parent).Linked stack :=
  (h.modify id (f := ({ · with pending := [] })) fun _ => rfl).mono fun _ _ scope found =>
    ⟨scope, found, rfl⟩

theorem Linked.push (h : scopes.Linked stack) (isCurrent : scopes.current? = stack.head?)
    (kind : ScopeKind) : (scopes.push kind).2.Linked ((scopes.push kind).1 :: stack) := by
  refine ⟨⟨_, by rw [get?_push, if_pos rfl], isCurrent⟩, h.mono fun id _ scope found => ?_⟩
  exact ⟨scope, by rw [get?_push, if_neg (ne_push_of_get? found kind), found], rfl⟩

/-- Whether `var` declarations stay in the scope with an index. -/
def isBoundary (scopes : Scopes) (id : ScopeId) : Bool :=
  (scopes.get? id).any fun scope => scope.kind.isFunctionBoundary

/-- Of open scopes, the one that takes a `var` declaration: the innermost one that keeps it, or else
the outermost one. -/
def owner? (scopes : Scopes) (stack : List ScopeId) : Option ScopeId :=
  (stack.find? scopes.isBoundary).or stack.getLast?

theorem mem_of_owner? (h : scopes.owner? stack = some id) : id ∈ stack := by
  rcases Option.or_eq_some_iff.mp h with hfind | ⟨-, hlast⟩
  · exact List.mem_of_find?_eq_some hfind
  · exact List.mem_of_getLast? hlast

/-- **The way out ends.** It passes through the open scopes and no others, and stops at the
owner. -/
theorem Linked.exec_varOwner {bound : Nat} (h : scopes.Linked (id :: rest))
    (hbound : (id :: rest).length ≤ bound) :
    ∃ owner, scopes.owner? (id :: rest) = some owner ∧
      exec (ScopeEdit.varOwner bound id) scopes = (.ok owner, scopes) := by
  induction rest generalizing id bound with
  | nil =>
    obtain ⟨bound, rfl⟩ : ∃ n, bound = n + 1 := Nat.exists_eq_add_of_le' hbound
    obtain ⟨⟨scope, found, hparent⟩, -⟩ := h
    refine ⟨id, ?_, ?_⟩
    · cases hb : scopes.isBoundary id <;> simp [owner?, hb]
    · rw [ScopeEdit.varOwner, exec_bind_of_ok (exec_scope found), hparent]
      rfl
  | cons outer rest ih =>
    obtain ⟨bound, rfl⟩ : ∃ n, bound = n + 1 :=
      Nat.exists_eq_add_of_le' (Nat.le_of_add_left_le hbound)
    obtain ⟨⟨scope, found, hparent⟩, hrest⟩ := h
    have hboundary : scopes.isBoundary id = scope.kind.isFunctionBoundary := by
      rw [isBoundary, found, Option.any_some]
    rw [ScopeEdit.varOwner, exec_bind_of_ok (exec_scope found), hparent]
    cases hb : scope.kind.isFunctionBoundary with
    | true =>
      refine ⟨id, ?_, rfl⟩
      rw [owner?, List.find?_cons, hboundary, hb, Option.some_or]
    | false =>
      obtain ⟨owner, howner, hrun⟩ := ih hrest (Nat.le_of_succ_le_succ hbound)
      refine ⟨owner, ?_, by simpa [hb] using hrun⟩
      rw [owner?, List.find?_cons, hboundary, hb, List.getLast?_cons_cons]
      exact howner

/-- The open scopes fit into the table. -/
theorem Linked.length_le_size (h : scopes.Linked stack) (hnodup : stack.Nodup) :
    stack.length ≤ scopes.size := by
  have hindex : (stack.map ScopeId.index).Nodup := hnodup.map fun _ _ => ScopeId.ext
  have hrange : stack.map ScopeId.index ⊆ List.range scopes.size := by
    intro n hn
    obtain ⟨id, hid, rfl⟩ := List.mem_map.mp hn
    obtain ⟨scope, found⟩ := h.exists_get? hid
    exact List.mem_range.mpr (index_lt_size found)
  simpa using (hindex.subperm hrange).length_le

/-- Declaring a name as `var` does, if the open scopes are known. -/
theorem Linked.exec_declareVar (h : scopes.Linked (id :: rest)) (hnodup : (id :: rest).Nodup)
    (isCurrent : scopes.current? = some id) (name : String) :
    ∃ owner, scopes.owner? (id :: rest) = some owner ∧ exec (ScopeEdit.declareVar name) scopes =
      (.ok (), scopes.modify owner (·.declare name)) := by
  obtain ⟨owner, howner, hrun⟩ := h.exec_varOwner (h.length_le_size hnodup)
  obtain ⟨scope, found⟩ := h.exists_get? (mem_of_owner? howner)
  refine ⟨owner, howner, ?_⟩
  rw [ScopeEdit.declareVar, exec_bind_of_ok (exec_current isCurrent), exec_bind_of_ok (exec_get _),
    exec_bind_of_ok hrun, exec_change found]

/-! ### Tables as frames -/

/-- The scopes with the given indices agree with the frames. -/
def ShowsAll (scopes : Scopes) (stack : List ScopeId) (frames : List Frame) : Prop :=
  List.Forall₂ (fun id frame => ∃ scope, scopes.get? id = some scope ∧ scope.Shows frame) stack
    frames

/-- The open scopes of a table have the given indices and agree with the frames. -/
structure Shows (scopes : Scopes) (stack : List ScopeId) (frames : List Frame) : Prop where
  isCurrent : scopes.current? = stack.head?
  linked : scopes.Linked stack
  nodup : stack.Nodup
  all : scopes.ShowsAll stack frames

/-- A change to a scope does not show in others. -/
theorem ShowsAll.modify_of_notMem (h : scopes.ShowsAll stack frames) {id : ScopeId}
    (hid : id ∉ stack) (f : Scope → Scope) : (scopes.modify id f).ShowsAll stack frames := by
  induction h with
  | nil => exact .nil
  | cons head _ ih =>
    rw [List.mem_cons, not_or] at hid
    obtain ⟨scope, found, shows⟩ := head
    refine .cons ⟨scope, ?_, shows⟩ (ih hid.2)
    rw [get?_modify_of_ne (Ne.symm hid.1), found]

/-- A change to the innermost scope. -/
theorem ShowsAll.modify_head {id : ScopeId} (h : scopes.ShowsAll (id :: stack) (frame :: frames))
    (hid : id ∉ stack) {f : Scope → Scope}
    (hf : ∀ scope : Scope, scope.Shows frame → (f scope).Shows frame') :
    (scopes.modify id f).ShowsAll (id :: stack) (frame' :: frames) := by
  obtain ⟨⟨scope, found, shows⟩, tail⟩ := List.forall₂_cons.mp h
  refine .cons ⟨f scope, ?_, hf scope shows⟩ (ShowsAll.modify_of_notMem tail hid f)
  rw [get?_modify_self, found, Option.map_some]

/-- The scope that takes a `var` declaration, and what the declaration does. -/
theorem ShowsAll.exists_owner (h : scopes.ShowsAll stack frames) (hnodup : stack.Nodup)
    (hroot : ∃ frame ∈ frames, frame.kind.isFunctionBoundary) (name : String) :
    ∃ id, stack.find? scopes.isBoundary = some id ∧
      (scopes.modify id (·.declare name)).ShowsAll stack (bindVars {name} frames) := by
  induction h with
  | nil => simp at hroot
  | @cons id frame stack frames head tail ih =>
    obtain ⟨hid, hnodup⟩ := List.nodup_cons.mp hnodup
    have ⟨scope, found, shows⟩ := head
    have hkind : scopes.isBoundary id = frame.kind.isFunctionBoundary := by
      rw [isBoundary, found, Option.any_some, shows.kind]
    by_cases hb : frame.kind.isFunctionBoundary = true
    · refine ⟨id, by rw [List.find?_cons, hkind, hb], ?_⟩
      rw [bindVars, if_pos hb]
      exact ShowsAll.modify_head (.cons head tail) hid fun scope hs => hs.declare name
    · obtain ⟨owner, hfind, hall⟩ := ih hnodup (by simpa [hb] using hroot)
      refine ⟨owner, by rw [List.find?_cons, hkind, Bool.eq_false_iff.mpr hb, hfind], ?_⟩
      rw [bindVars, if_neg hb]
      refine .cons ⟨scope, ?_, shows⟩ hall
      rw [get?_modify_of_ne, found]
      rintro rfl
      exact hid (List.mem_of_find?_eq_some hfind)

namespace Shows

/-- A change to the innermost scope. -/
theorem modify_head (h : scopes.Shows (id :: stack) (frame :: frames)) {f : Scope → Scope}
    (hparent : ∀ scope : Scope, (f scope).parent = scope.parent)
    (hf : ∀ scope : Scope, scope.Shows frame → (f scope).Shows frame') :
    (scopes.modify id f).Shows (id :: stack) (frame' :: frames) :=
  ⟨h.isCurrent, h.linked.modify id hparent, h.nodup,
    h.all.modify_head (List.nodup_cons.mp h.nodup).1 hf⟩

theorem push (h : scopes.Shows stack frames) (kind : ScopeKind) :
    (scopes.push kind).2.Shows ((scopes.push kind).1 :: stack) ({ kind } :: frames) := by
  refine ⟨rfl, h.linked.push h.isCurrent kind, List.nodup_cons.mpr ⟨fun hmem => ?_, h.nodup⟩,
    .cons ⟨_, by rw [get?_push, if_pos rfl], rfl, ?_, ?_⟩ (h.all.imp ?_)⟩
  · obtain ⟨scope, found⟩ := h.linked.exists_get? hmem
    exact ne_push_of_get? found kind rfl
  · simp [Scope.declares]
  · exact ⟨List.nodup_nil, by simp [firstUse]⟩
  · rintro id frame ⟨scope, found, shows⟩
    exact ⟨scope, by rw [get?_push, if_neg (ne_push_of_get? found kind), found], shows⟩

theorem declare (h : scopes.Shows (id :: stack) (frame :: frames)) (name : String) :
    ∃ scopes', exec (ScopeEdit.declare name) scopes = (.ok (), scopes') ∧
      scopes'.Shows (id :: stack) (frame.bind {name} :: frames) := by
  obtain ⟨scope, found, -⟩ := h.linked.1
  exact ⟨_, exec_declare h.isCurrent found name,
    h.modify_head (Scope.parent_declare · name) fun scope hs => hs.declare name⟩

theorem reference (h : scopes.Shows (id :: stack) (frame :: frames)) (use : Reference) :
    ∃ scopes', exec (ScopeEdit.reference use) scopes = (.ok (), scopes') ∧
      scopes'.Shows (id :: stack) (frame.use [use] :: frames) := by
  obtain ⟨scope, found, -⟩ := h.linked.1
  exact ⟨_, exec_reference h.isCurrent found use,
    h.modify_head (Scope.parent_reference · use) fun scope hs => hs.reference use⟩

/-- The name of a `var` declaration goes to the frame that keeps it. -/
theorem declareVar (h : scopes.Shows stack frames)
    (hroot : ∃ frame ∈ frames, frame.kind.isFunctionBoundary) (name : String) :
    ∃ scopes', exec (ScopeEdit.declareVar name) scopes = (.ok (), scopes') ∧
      scopes'.Shows stack (bindVars {name} frames) := by
  obtain ⟨owner, hfind, hall⟩ := h.all.exists_owner h.nodup hroot name
  cases stack with
  | nil => cases hfind
  | cons id stack =>
    obtain ⟨owner', howner, hrun⟩ := h.linked.exec_declareVar h.nodup h.isCurrent name
    rw [owner?, hfind, Option.some_or] at howner
    obtain rfl := Option.some.inj howner
    exact ⟨_, hrun, h.isCurrent, h.linked.modify owner (Scope.parent_declare · name), h.nodup, hall⟩

/-- Closing a scope leaves the scopes around it as they were, but for the pending uses. -/
theorem close (h : scopes.Shows (id :: stack) (frame :: frames)) :
    ∃ scope, scopes.get? id = some scope ∧ scope.parent = stack.head? ∧
      Firsts scope.unresolved frame.unresolved ∧
        (scopes.close id stack.head?).Shows stack frames := by
  obtain ⟨hid, hnodup⟩ := List.nodup_cons.mp h.nodup
  obtain ⟨⟨scope, found, hparent⟩, hlinked⟩ := h.linked
  obtain ⟨⟨scope', found', shows⟩, tail⟩ := List.forall₂_cons.mp h.all
  obtain rfl := Option.some.inj (found.symm.trans found')
  exact ⟨scope, found, hparent, shows.unresolved, rfl, hlinked.close id _, hnodup,
    ShowsAll.modify_of_notMem tail hid _⟩

/-- **Closing a scope hands its unresolved uses to the scope around it.** -/
theorem pop {around : ScopeId} {outer : Frame}
    (h : scopes.Shows (id :: around :: stack) (frame :: outer :: frames)) :
    ∃ closing scopes', exec (ScopeEdit.pop id) scopes = (.ok closing, scopes') ∧
      scopes'.Shows (around :: stack) (outer.use frame.unresolved :: frames) := by
  obtain ⟨scope, found, hparent, hfirsts, hclosed⟩ := h.close
  obtain ⟨⟨scope', above, hs'⟩, -⟩ := List.forall₂_cons.mp hclosed.all
  refine ⟨_, _, exec_pop h.isCurrent found hparent above,
    hclosed.modify_head (Scope.parent_foldl_reference _) fun scope₂ hs => ?_⟩
  have huses : scope'.newUses scope.unresolved =
      scope.unresolved.filter fun use => (firstUse outer.uses use.name).isNone = true := by
    refine List.filter_congr fun use _ => ?_
    rw [Bool.decide_eq_true, ← hs'.pending.firstUse_eq]
    rfl
  refine (hs.foldl_reference _).congr fun name => ?_
  rw [firstUse_append, firstUse_append, huses,
    firstUse_filter scope.unresolved fun name => (firstUse outer.uses name).isNone,
    hfirsts.firstUse_eq]
  cases firstUse outer.uses name <;> rfl

/-- Closing the outermost scope finds the first use of each name that is bound nowhere. -/
theorem pop_last (h : scopes.Shows [id] [frame]) :
    ∃ closing scopes', exec (ScopeEdit.pop id) scopes = (.ok closing, scopes') ∧
      Firsts closing.escaped frame.unresolved := by
  obtain ⟨scope, found, hparent, hfirsts, -⟩ := h.close
  exact ⟨_, _, exec_pop_last h.isCurrent found hparent, hfirsts⟩

end Shows

end Scopes

end Declass
