import Declass.Proofs.Marks
import Declass.Proofs.SuperFlag

/-!
# What a lowering looks at

It is a fault to look at an index that names no node. The lowering gets the indices that it looks at
from the nodes that it has looked at before, and from those that it has made. So at each moment some
indices are still to be looked at, and what is missing below them is the debt that the run has yet
to settle. An edit passes its debt on to what it returns, or settles it, and it takes up no other:
`Tracks` says that the same is missing below what is given as below what is returned, on all stores,
whatever dangles in them.

The one index that does not come from a node is that of the expression which names the class at
hand. It comes from the stack of classes, and so the same run lemmas say that an edit that succeeds
leaves this stack as it found it, but for the marks that say whether `super` was used.

## Main definitions

* `Store.Visits` — a path along the children that the lowering looks at
* `Store.Owes`, `Store.SameDebt` — what is missing below given indices
* `LoweringState.stack`, `Steady` — the classes at hand, and an edit that keeps them
* `Tracks` — an edit that looks at what is below given indices and at nothing else

## Main results

* `tracks_expandNode`, `tracks_lowerNode`, `tracks_lowerMember`
* `lowerProgram_traced` — what is missing when a program has been lowered
-/

namespace Declass

open Edit Lowering

/-! ### What is missing -/

/-- `parts` are `ids`, and maybe some of `known`. -/
@[grind =]
def Accounts (known ids parts : List NodeId) : Prop :=
  ids ⊆ parts ∧ parts ⊆ ids ++ known

theorem Accounts.refl (known ids : List NodeId) : Accounts known ids ids :=
  ⟨List.Subset.refl _, List.subset_append_left _ _⟩

namespace Store

variable {s s' t : Store} {a b d id : NodeId} {known k ids ids' parts r r' : List NodeId}
  {node : Node}

/-- `b` is reached from `a` without the name of a class expression on the way. -/
def Visits (s : Store) : NodeId → NodeId → Prop :=
  Relation.ReflTransGen fun a b => ∃ node, s.get? a = some node ∧ b ∈ node.shape.kept

theorem Visits.mono (h : s.Visits a b) (hle : s ≤ s') : s'.Visits a b :=
  Relation.ReflTransGen.mono (fun _ _ ⟨node, found, hb⟩ => ⟨node, hle _ _ found, hb⟩) _ _ h

/-- There is a construct at `id` that is no class. -/
def IsPlain (s : Store) (id : NodeId) : Prop :=
  ∃ node, s.get? id = some node ∧ node.shape.isClass = false

theorem IsPlain.mono (h : s.IsPlain id) (hle : s ≤ s') : s'.IsPlain id := by
  obtain ⟨node, found, plain⟩ := h
  exact ⟨node, hle id node found, plain⟩

/-- `d` has no node yet, and is below one of `ids` in the store `t`. -/
def Owes (s t : Store) (ids : List NodeId) (d : NodeId) : Prop :=
  s.size ≤ d.index ∧ ∃ id ∈ ids, t.Visits id d

theorem Owes.subset (h : s.Owes t ids d) (hsubset : ids ⊆ ids') : s.Owes t ids' d :=
  ⟨h.1, h.2.imp fun _ ⟨hid, hvisits⟩ => ⟨hsubset hid, hvisits⟩⟩

theorem owes_of_missing (hnone : s.get? id = none) (hid : id ∈ ids) : s.Owes s ids id := by
  refine ⟨Nat.le_of_not_lt fun hlt => ?_, id, hid, .refl⟩
  have hsome := (isSome_get?_iff s id).mpr hlt
  rw [hnone] at hsome
  cases hsome

theorem owes_append_iff : s.Owes t (ids ++ ids') d ↔ s.Owes t ids d ∨ s.Owes t ids' d := by
  simp only [Owes, List.mem_append, or_and_right, exists_or, and_or_left]

/-- Whatever becomes of the store, the same is missing below `ids` as below `ids'`, apart from what
is missing below `known`. -/
def SameDebt (s : Store) (known ids ids' : List NodeId) : Prop :=
  ∀ t, s ≤ t → ∀ d, s.Owes t (ids ++ known) d ↔ s.Owes t (ids' ++ known) d

namespace SameDebt

theorem refl (known ids : List NodeId) : s.SameDebt known ids ids :=
  fun _ _ _ => .rfl

theorem symm (h : s.SameDebt known ids ids') : s.SameDebt known ids' ids :=
  fun t ht d => (h t ht d).symm

theorem trans (h : s.SameDebt known ids ids') (h' : s.SameDebt known ids' parts) :
    s.SameDebt known ids parts :=
  fun t ht d => (h t ht d).trans (h' t ht d)

/-- What accounts for the same parts owes the same. -/
theorem of_accounts (h : Accounts known ids parts) : s.SameDebt known ids parts :=
  fun _ _ _ => ⟨fun howes => howes.subset (by grind), fun howes => howes.subset (by grind)⟩

/-- A debt only shrinks when the store grows. -/
theorem mono (h : s.SameDebt known ids ids') (hle : s ≤ s') : s'.SameDebt known ids ids' := by
  intro t ht d
  have hsize := size_le_of_le hle
  have hiff := h t (hle.trans ht) d
  constructor
  · exact fun howes => ⟨howes.1, (hiff.mp ⟨hsize.trans howes.1, howes.2⟩).2⟩
  · exact fun howes => ⟨howes.1, (hiff.mpr ⟨hsize.trans howes.1, howes.2⟩).2⟩

theorem append (h : s.SameDebt known ids ids') (h' : s.SameDebt known r r') :
    s.SameDebt known (ids ++ r) (ids' ++ r') := by
  intro t ht d
  have h := h t ht d
  have h' := h' t ht d
  simp only [owes_append_iff] at h h' ⊢
  grind

theorem widen (h : s.SameDebt known ids ids') (hsubset : known ⊆ k) :
    s.SameDebt k ids ids' := by
  intro t ht d
  have h := h t ht d
  have hknown : s.Owes t known d → s.Owes t k d := fun howes => howes.subset hsubset
  simp only [owes_append_iff] at h ⊢
  grind

/-- What owes nothing of its own need not be known. -/
theorem absorb (h : s.SameDebt (parts ++ known) ids ids') (hparts : s.SameDebt known parts []) :
    s.SameDebt known ids ids' := by
  intro t ht d
  have h := h t ht d
  have hparts := hparts t ht d
  simp only [owes_append_iff, List.nil_append] at h hparts ⊢
  grind

/-- Below a node that is there nothing is missing but what is missing below its children. -/
theorem of_found (known : List NodeId) (found : s.get? id = some node) :
    s.SameDebt known [id] node.shape.kept := by
  intro t ht d
  rw [owes_append_iff, owes_append_iff]
  refine or_congr_left ⟨?_, ?_⟩
  · rintro ⟨hsize, _, hid, hvisits⟩
    obtain rfl := List.mem_singleton.mp hid
    rcases hvisits.cases_head with rfl | ⟨c, ⟨_, found', hc⟩, hvisits⟩
    · exact absurd ((isSome_get?_iff s _).mp (by rw [found]; rfl)) (Nat.not_lt.mpr hsize)
    · obtain rfl := Option.some.inj ((ht _ _ found).symm.trans found')
      exact ⟨hsize, c, hc, hvisits⟩
  · rintro ⟨hsize, c, hc, hvisits⟩
    exact ⟨hsize, id, List.mem_singleton_self id, .head ⟨node, ht _ _ found, hc⟩ hvisits⟩

/-- Nothing is missing below the word `super`. -/
theorem of_word (word : (s.shape? id).any Shape.isSuper = true) : s.SameDebt known [id] [] := by
  obtain ⟨shape, hshape, hsuper⟩ := (Option.any_eq_true _ _).mp word
  obtain ⟨node, found, rfl⟩ := Option.map_eq_some_iff.mp hshape
  have hnone : node.shape.kept = [] := by
    cases hs : node.shape <;> rw [hs] at hsuper <;> first | rfl | cases hsuper
  exact hnone ▸ of_found known found

/-- Below a member of `super` only the key counts. -/
theorem of_superAccess? {shape : Shape NodeId} {access : SuperAccess NodeId}
    (target : shape.superAccess? s.shape? = some access) :
    s.SameDebt known shape.kept access.key.operands := by
  cases shape with
  | member object | lookup object =>
    simp only [Shape.superAccess?] at target
    split at target
    · cases target
      exact (of_word ‹_›).append (.refl _ _)
    · cases target
  | _ => cases target

theorem of_access {access : SuperAccess NodeId}
    (target : (s.shape? id).bind (Shape.superAccess? s.shape?) = some access) :
    s.SameDebt known [id] access.key.operands := by
  obtain ⟨shape, hshape, target⟩ := Option.bind_eq_some_iff.mp target
  obtain ⟨node, found, rfl⟩ := Option.map_eq_some_iff.mp hshape
  exact (of_found known found).trans (of_superAccess? target)

/-- Below a use of `super` only the operands count. -/
theorem operands {use : SuperUse NodeId} (known : List NodeId) (found : s.get? id = some node)
    (role : s.superRole id node.shape = .use use) : s.SameDebt known [id] use.operands := by
  refine (of_found known found).trans ?_
  have huse := Shape.isUse_of_superRole role
  generalize node.shape = shape at huse
  cases huse with
  | call word => exact (of_word word).append (.refl _ _)
  | methodCall target | assign target | compound target =>
    exact (of_access target).append (.refl _ _)
  | update target => exact of_access target
  | get target => exact of_superAccess? target
  | bare => exact .refl _ _

end SameDebt

end Store

/-! ### Runs -/

variable {α β : Type}

/-- The classes that are being lowered, innermost first, each with the expression that names it. -/
def LoweringState.stack (state : LoweringState) : List (NodeId × NodeId) :=
  state.classes.map fun context => (context.node, context.nameExpr)

/-- The expression that names the class at hand. -/
def LoweringState.top? (state : LoweringState) : Option NodeId :=
  state.stack.head?.map Prod.snd

/-- Whenever the edit succeeds, the store has only grown and the same classes are at hand. -/
def Steady (e : Lowering α) : Prop :=
  ∀ session, Ensures session e fun _ session' => session'.state.stack = session.state.stack

/-- How a run ends that looks at what is below `ids`, and below `known` if need be. What is missing
is passed on to `out` of the result, or has been found if the debt is settled. -/
def Traced (settled : Bool) (known ids : List NodeId) (session : Session LoweringState)
    (out : α → List NodeId) : Except Fault α × Session LoweringState → Prop
  | (.ok a, session') => session.store ≤ session'.store ∧
      session'.state.stack = session.state.stack ∧ session'.store.SameDebt known ids (out a) ∧
      (settled = true → session'.store.SameDebt known (out a) [])
  | (.error fault, session') => session.store ≤ session'.store ∧
      ∀ d, fault = .missingNode d → session'.store.Owes session'.store (ids ++ known) d

/-- All runs of the edit are such runs, if `top` names the class at hand. -/
def Tracks (top : Option NodeId) (settled : Bool) (known ids : List NodeId) (e : Lowering α)
    (out : α → List NodeId) : Prop :=
  ∀ session, session.state.top? = top → Traced settled known ids session out (exec e session)

section Rules

variable {top : Option NodeId} {settled settled' : Bool} {known k ids ids' r : List NodeId}
  {session : Session LoweringState} {x : Lowering α} {f : α → Lowering β} {out : α → List NodeId}
  {out' : β → List NodeId}

theorem top?_eq {state state' : LoweringState} (h : state'.stack = state.stack) :
    state'.top? = state.top? := by
  rw [LoweringState.top?, h, LoweringState.top?]

section Ends

variable {session₁ : Session LoweringState} {run : Except Fault α × Session LoweringState}

/-- What comes after a run that has succeeded. -/
theorem Traced.after (h : Traced settled known ids session₁ out run)
    (hle : session.store ≤ session₁.store)
    (hstack : session₁.state.stack = session.state.stack) :
    Traced settled known ids session out run := by
  rcases run with ⟨fault | a, session'⟩
  · exact ⟨hle.trans h.1, h.2⟩
  · exact ⟨hle.trans h.1, h.2.1.trans hstack, h.2.2⟩

/-- A run may be charged with anything that owes the same. -/
theorem Traced.congr (h : Traced settled known ids session out run)
    (hsame : session.store.SameDebt known ids' ids) :
    Traced settled known ids' session out run := by
  rcases run with ⟨fault | a, session'⟩
  · exact ⟨h.1, fun d hd => (hsame.mono h.1 _ le_rfl d).mpr (h.2 d hd)⟩
  · exact ⟨h.1, h.2.1, (hsame.mono h.1).trans h.2.2.1, h.2.2.2⟩

/-- A run stays traced when more is known. -/
theorem Traced.widen (h : Traced settled known ids session out run) (hsubset : known ⊆ k) :
    Traced settled k ids session out run := by
  rcases run with ⟨fault | a, session'⟩
  · exact ⟨h.1, fun d hd => (h.2 d hd).subset (by grind)⟩
  · exact ⟨h.1, h.2.1, h.2.2.1.widen hsubset, fun hsettled => (h.2.2.2 hsettled).widen hsubset⟩

/-- What owes nothing need not be known beforehand. -/
theorem Traced.absorb {parts : List NodeId}
    (h : Traced settled (parts ++ known) ids session out run)
    (hparts : session.store.SameDebt known parts []) :
    Traced settled known ids session out run := by
  rcases run with ⟨fault | a, session'⟩
  · refine ⟨h.1, fun d hd => ?_⟩
    have howes := h.2 d hd
    have hparts := hparts.mono h.1 _ le_rfl d
    simp only [Store.owes_append_iff, List.nil_append] at howes hparts ⊢
    grind
  · have hparts := hparts.mono h.1
    exact ⟨h.1, h.2.1, h.2.2.1.absorb hparts, fun hsettled => (h.2.2.2 hsettled).absorb hparts⟩

end Ends

/-- One run after another, with what the first leaves aside. -/
theorem Traced.bind (hx : Traced settled known ids session out (exec x session))
    (hf : ∀ a session₁, exec x session = (.ok a, session₁) → session.store ≤ session₁.store →
      session₁.state.stack = session.state.stack →
      (settled = true → session₁.store.SameDebt known (out a) []) →
      Traced settled' known (out a ++ r) session₁ out' (exec (f a) session₁)) :
    Traced settled' known (ids ++ r) session out' (exec (x >>= f) session) := by
  rcases hrun : exec x session with ⟨fault | a, session₁⟩
  · rw [exec_bind_of_error hrun]
    rw [hrun] at hx
    exact ⟨hx.1, fun d hd => (hx.2 d hd).subset (by grind)⟩
  · rw [hrun] at hx
    obtain ⟨hle, hstack, hsame, hsettled⟩ := hx
    rw [exec_bind_of_ok hrun]
    have hrest := (hf a session₁ hrun hle hstack hsettled).congr (hsame.append (.refl _ r))
    exact hrest.after hle hstack

/-- The result of a run that settles its debt is known to what comes after. -/
theorem Traced.bind_settled (hx : Traced true known ids session out (exec x session))
    (hf : ∀ a session₁, exec x session = (.ok a, session₁) → session.store ≤ session₁.store →
      session₁.state.stack = session.state.stack →
      Traced settled (out a ++ known) r session₁ out' (exec (f a) session₁)) :
    Traced settled known (ids ++ r) session out' (exec (x >>= f) session) := by
  refine hx.bind fun a session₁ hrun hle hstack hout => ?_
  exact ((hf a session₁ hrun hle hstack).absorb (hout rfl)).congr ((hout rfl).append (.refl _ r))

/-- A run whose failure is not overcome. -/
theorem Traced.attempt_bind {session₁ : Session LoweringState} {g : Except Fault α → Lowering β}
    (hle : session.store ≤ session₁.store)
    (hx : Traced settled known ids session₁ out (exec x session₁))
    (hok : ∀ a session₂, Traced settled known ids session₁ out (.ok a, session₂) →
      Traced settled' known ids session out' (exec (g (.ok a)) session₂))
    (herror : ∀ fault session₂, ∃ fault' state,
      exec (g (.error fault)) session₂ = (.error fault', ⟨session₂.store, state⟩) ∧
        (fault' = fault ∨ ∀ d, fault' ≠ .missingNode d)) :
    Traced settled' known ids session out' (exec (attempt x >>= g) session₁) := by
  have hattempt : exec (attempt x) session₁ = (.ok (exec x session₁).1, (exec x session₁).2) := rfl
  rw [exec_bind_of_ok hattempt]
  revert hx
  rcases exec x session₁ with ⟨fault | a, session₂⟩
  · intro hx
    obtain ⟨fault', state, hrun, rfl | hne⟩ := herror fault session₂
    · rw [hrun]
      exact ⟨hle.trans hx.1, hx.2⟩
    · rw [hrun]
      exact ⟨hle.trans hx.1, fun d hd => absurd hd (hne d)⟩
  · exact hok a session₂

theorem traced_modifyState_bind {f : LoweringState → LoweringState} {g : Unit → Lowering β}
    (hf : (f session.state).stack = session.state.stack)
    (h : Traced settled known ids { session with state := f session.state } out'
      (exec (g ()) { session with state := f session.state })) :
    Traced settled known ids session out' (exec (modifyState f >>= g) session) :=
  h.after le_rfl hf

theorem traced_store_bind {g : Store → Lowering β}
    (h : Traced settled known ids session out' (exec (g session.store) session)) :
    Traced settled known ids session out' (exec (store >>= g) session) :=
  h

/-- A look at an index. -/
theorem traced_node_bind {id : NodeId} {g : Node → Lowering β} (hid : id ∈ ids ++ known)
    (h : ∀ node, session.store.get? id = some node →
      Traced settled known ids session out' (exec (g node) session)) :
    Traced settled known ids session out' (exec (node id >>= g) session) := by
  cases found : session.store.get? id with
  | some node =>
    rw [exec_bind_of_ok (exec_node found session.state)]
    exact h node found
  | none =>
    have hnode : exec (node id) session = (.error (.missingNode id), session) := by
      change exec (settle (session.store.node id)) session = _
      rw [Store.node, found]
      rfl
    rw [exec_bind_of_error hnode]
    refine ⟨le_rfl, ?_⟩
    rintro d ⟨⟩
    exact Store.owes_of_missing found hid

theorem Tracks.congr (h : Tracks top settled known ids' x out) (hids : Accounts known ids ids') :
    Tracks top settled known ids x out :=
  fun session htop => (h session htop).congr (.of_accounts hids)

theorem Tracks.widen (h : Tracks top settled known ids x out) (hsubset : known ⊆ k) :
    Tracks top settled k ids x out :=
  fun session htop => (h session htop).widen hsubset

/-- One edit after another, with what the first leaves aside. -/
theorem Tracks.bind (hx : Tracks top false known ids x out) (r : List NodeId)
    (h : Accounts known ids' (ids ++ r))
    (hf : ∀ a, Tracks top settled known (out a ++ r) (f a) out') :
    Tracks top settled known ids' (x >>= f) out' := by
  refine Tracks.congr (fun session htop => ?_) h
  refine (hx session htop).bind fun a session₁ _ _ hstack _ => ?_
  exact hf a session₁ ((top?_eq hstack).trans htop)

/-- A first part that settles its debts, and then the rest. -/
theorem Tracks.bind_settled (hx : Tracks top true known ids x out) (r : List NodeId)
    (h : Accounts known ids' (ids ++ r))
    (hf : ∀ a, Tracks top settled (out a ++ known) r (f a) out') :
    Tracks top settled known ids' (x >>= f) out' := by
  refine Tracks.congr (fun session htop => ?_) h
  refine (hx session htop).bind_settled fun a session₁ _ _ hstack => ?_
  exact hf a session₁ ((top?_eq hstack).trans htop)

/-- A first part that owes nothing, and then the rest. -/
theorem Tracks.next (hx : Tracks top true known [] x out)
    (hf : ∀ a, Tracks top settled (out a ++ known) ids (f a) out') :
    Tracks top settled known ids (x >>= f) out' :=
  hx.bind_settled ids (.refl _ _) hf

/-- An edit that is given nothing but what is known has a known result. -/
theorem Tracks.settle (h : Tracks top false known ids x out) (hids : ids ⊆ known) :
    Tracks top true known [] x out := by
  intro session htop
  have htraced : Traced false known [] session out (exec x session) :=
    h.congr ⟨List.nil_subset _, hids⟩ session htop
  revert htraced
  rcases exec x session with ⟨fault | a, session'⟩
  · exact id
  · exact fun ⟨hle, hstack, hsame, _⟩ => ⟨hle, hstack, hsame, fun _ => hsame.symm⟩

theorem Steady.grows (h : Steady x) : Grows x :=
  fun session => (h session).imp fun _ _ _ _ => trivial

/-- What is tracked leaves the classes on the stack as they are. -/
theorem Tracks.steady (known : Option NodeId → List NodeId)
    (h : ∀ top, Tracks top settled (known top) ids x out) : Steady x := by
  intro session a session' run
  have htraced := h _ session rfl
  rw [run] at htraced
  exact ⟨htraced.1, htraced.2.1⟩

/-- An edit that succeeds without a look at the store. -/
theorem tracks_of_ok (h : ∀ session, ∃ a state, exec x session = (.ok a, ⟨session.store, state⟩) ∧
    state.stack = session.state.stack ∧ out a = []) : Tracks top true known [] x out := by
  intro session _
  obtain ⟨a, state, hrun, hstack, hout⟩ := h session
  rw [hrun]
  exact ⟨le_rfl, hstack, hout ▸ .refl _ _, fun _ => hout ▸ .refl _ _⟩

/-- A result is charged with what it is made of. -/
theorem tracks_pure (a : α) (out : α → List NodeId) :
    Tracks top false known (out a) (pure a) out :=
  fun _ _ => ⟨le_rfl, rfl, .refl _ _, by simp⟩

theorem tracks_return {a : α} (h : out a ⊆ known) : Tracks top true known [] (pure a) out :=
  (tracks_pure a out).settle h

/-- Only a missing node needs an account. -/
theorem tracks_throw {fault : Fault} (h : ∀ d, fault ≠ .missingNode d) :
    Tracks top settled known ids (throw fault : Lowering α) out :=
  fun _ _ => ⟨le_rfl, fun d hd => absurd hd (h d)⟩

theorem tracks_modifyState {f : LoweringState → LoweringState}
    (hf : ∀ state, (f state).stack = state.stack) :
    Tracks top true known [] (modifyState f) fun _ => [] :=
  tracks_of_ok fun session => ⟨(), f session.state, rfl, hf _, rfl⟩

theorem tracks_modifyGetState {f : LoweringState → α × LoweringState}
    (hf : ∀ state, (f state).2.stack = state.stack) :
    Tracks top true known [] (modifyGetState f) fun _ => [] :=
  tracks_of_ok fun session => ⟨(f session.state).1, (f session.state).2, rfl, hf _, rfl⟩

theorem tracks_state : Tracks top true known [] state fun _ => [] :=
  tracks_of_ok fun session => ⟨session.state, session.state, rfl, rfl, rfl⟩

theorem tracks_range? (id : NodeId) : Tracks top true known [] (range? id) fun _ => [] :=
  tracks_of_ok fun session => ⟨session.store.range? id, session.state, rfl, rfl, rfl⟩

/-- A look at an index that is known. -/
theorem tracks_node_bind {id : NodeId} {g : Node → Lowering β} (hid : id ∈ known)
    (h : ∀ node, Tracks top settled (node.shape.kept ++ known) ids (g node) out') :
    Tracks top settled known ids (node id >>= g) out' := by
  intro session htop
  refine traced_node_bind (List.mem_append_right _ hid) fun node found => ?_
  refine (h node session htop).absorb ((Store.SameDebt.of_found known found).symm.trans ?_)
  exact .symm (.of_accounts ⟨List.nil_subset _, by simpa using hid⟩)

/-- A new node is charged with what it keeps. -/
theorem tracks_append (shape : Shape NodeId) (range : Option Range) :
    Tracks top false known shape.kept (append shape range) fun id => [id] := by
  intro session _
  have found : (session.store.push ⟨shape, range⟩).get? session.store.nextId =
      some ⟨shape, range⟩ := by
    rw [Store.get?_push, if_pos rfl]
  exact ⟨Store.le_push _ _, rfl, (Store.SameDebt.of_found known found).symm, by simp⟩

/-- A node whose children are known. -/
theorem tracks_make {shape : Shape NodeId} (range : Option Range) (h : shape.kept ⊆ known) :
    Tracks top true known [] (append shape range) fun id => [id] :=
  (tracks_append shape range).settle h

/-- A new node of known parts is free. -/
theorem tracks_synth {shape : Shape NodeId} (h : shape.kept ⊆ known) :
    Tracks top true known [] (synth shape) fun id => [id] :=
  tracks_make none h

/-- A list is charged with what its elements are charged with. -/
theorem tracks_mapM {visit : α → Lowering β} {ids : α → List NodeId} {as : List α}
    (h : ∀ a ∈ as, Tracks top settled known (ids a) (visit a) out') :
    Tracks top settled known (as.flatMap ids) (as.mapM visit) fun bs => bs.flatMap out' := by
  induction as with
  | nil => exact fun _ _ => ⟨le_rfl, rfl, .refl _ _, fun _ => .refl _ _⟩
  | cons a as ih =>
    obtain ⟨hhead, htail⟩ := List.forall_mem_cons.mp h
    rw [List.mapM_cons, List.flatMap_cons]
    intro session htop
    refine (hhead session htop).bind fun b session₁ _ _ hstack hb => ?_
    have hrest := ih htail session₁ ((top?_eq hstack).trans htop)
    refine (hrest.bind (r := out' b) fun bs session₂ _ hle _ hbs => ?_).congr
      (.of_accounts (by grind))
    refine ⟨le_rfl, rfl, .of_accounts (by grind), fun hsettled => ?_⟩
    exact ((hb hsettled).mono hle).append (hbs hsettled)

end Rules

/-! ### Expansion -/

section Expansion

variable {top : Option NodeId} {known ids : List NodeId}

theorem tracks_helper (space : String) (helper : Helper) :
    Tracks top true known [] (Build.helper space helper) fun id => [id] :=
  (tracks_synth (List.nil_subset _)).next fun _ =>
    tracks_synth (by simp [Shape.kept, Shape.children])

theorem tracks_record (event : Log.Event) :
    Tracks top true known [] (record event) fun _ => [] :=
  tracks_modifyState fun _ => rfl

theorem tracks_reportSuper (range : Option Range) (message : Message) :
    Tracks top true known [] (reportSuper range message) fun _ => [] :=
  (tracks_record _).next fun _ => tracks_modifyState fun _ => rfl

theorem tracks_allocate : Tracks top true known [] allocate fun _ => [] :=
  (tracks_modifyGetState fun _ => rfl).next fun _ => tracks_state.next fun _ =>
    (tracks_record _).next fun _ => tracks_of_ok fun _ => ⟨_, _, rfl, rfl, rfl⟩

theorem tracks_emit (key : StableKey) : Tracks top true known [] key.emit fun id => [id] := by
  cases key <;> exact tracks_synth (List.nil_subset _)

theorem tracks_helperCall {site : SuperSite} (hsite : site.classRef ∈ known) (helper : Helper)
    (key : NodeId) (rest : List NodeId) (range : Option Range) :
    Tracks top false known (key :: rest) (helperCall site helper key rest range)
      fun id => [id] := by
  refine (tracks_helper _ _).next fun callee => (tracks_synth (List.nil_subset _)).next fun _ => ?_
  refine tracks_node_bind (by simp [hsite]) fun node => ?_
  refine (tracks_synth (List.subset_append_left _ _)).next fun classRef => ?_
  refine Tracks.next (tracks_modifyState fun _ => rfl) fun _ => (tracks_append _ range).congr ?_
  grind [Shape.kept, Shape.children]

theorem tracks_sequence (init : Option NodeId) (expression : NodeId) (range : Option Range) :
    Tracks top false known (init.toList ++ [expression]) (sequence init expression range)
      fun id => [id] := by
  cases init with
  | none => exact tracks_pure expression fun id => [id]
  | some init =>
    refine (tracks_append (.comma [init, expression]) none).bind [] ?_ fun comma => ?_
    · exact .refl _ _
    · exact tracks_append (.paren comma) range

/-- A visit of an index looks at what is below it, and below `rest` if need be. -/
def TracksVisits (settled : Bool) (rest : List NodeId) (visit : NodeId → Lowering NodeId) : Prop :=
  ∀ top id, Tracks top settled rest [id] (visit id) fun id' => [id']

section Visits

variable {settled : Bool} {rest : List NodeId} {visit : NodeId → Lowering NodeId}
  (hvisit : TracksVisits settled rest visit)

include hvisit

theorem TracksVisits.one (h : rest ⊆ known) (id : NodeId) :
    Tracks top settled known [id] (visit id) fun id' => [id'] :=
  (hvisit top id).widen h

theorem TracksVisits.list (h : rest ⊆ known) (parts : List NodeId) :
    Tracks top settled known parts (parts.mapM visit) fun parts' => parts' := by
  have hvisits : Tracks top settled known (parts.flatMap fun id => [id]) (parts.mapM visit)
      fun parts' => parts'.flatMap fun id => [id] := tracks_mapM fun id _ => hvisit.one h id
  simpa only [List.flatMap_singleton'] using hvisits

theorem TracksVisits.steady (id : NodeId) : Steady (visit id) :=
  Tracks.steady (fun _ => rest) fun top => hvisit top id

/-- A walk of a construct that is no class looks at what is below its children. -/
theorem TracksVisits.walk {session : Session LoweringState} {id : NodeId}
    (plain : session.store.IsPlain id) :
    Traced settled rest [id] session (fun id' => [id']) (exec (Edit.walk visit id) session) := by
  refine traced_node_bind (by simp) fun node found => ?_
  obtain ⟨_, found', plain⟩ := plain
  obtain rfl := Option.some.inj (found.symm.trans found')
  rw [Shape.mapM_eq_refill, map_eq_pure_bind, bind_assoc]
  have hsame : session.store.SameDebt rest [id] node.shape.children :=
    Shape.kept_eq plain ▸ .of_found rest found
  have hvisits := hvisit.list (List.Subset.refl _) node.shape.children session rfl
  refine (hvisits.bind (r := []) fun ids session' hrun hle hstack hids => ?_).congr
    (by rwa [List.append_nil])
  have hlength : ids.length = node.shape.children.length :=
    (Grows.mapM_length (fun id => (hvisit.steady id).grows) _ session ids session' hrun).2
  rw [pure_bind, Shape.children_refill hlength, List.append_nil]
  split
  case isTrue heq =>
    have hsame := hsame.mono hle
    exact ⟨le_rfl, rfl, heq ▸ hsame.symm, fun hsettled => hsame.trans (heq ▸ hids hsettled)⟩
  case isFalse =>
    have hkept : (node.shape.refill ids).kept = ids := by
      rw [Shape.kept_eq (by rwa [Shape.isClass_refill]), Shape.children_refill hlength]
    have happend : Traced false rest (node.shape.refill ids).kept session' (fun id => [id]) _ :=
      tracks_append (node.shape.refill ids) node.range session' rfl
    rw [hkept] at happend
    obtain ⟨hle', hstack', hnew, -⟩ := happend
    exact ⟨hle', hstack', hnew, fun hsettled => hnew.symm.trans ((hids hsettled).mono hle')⟩

end Visits

variable {visit : NodeId → Lowering NodeId} {site : SuperSite}
  (hvisit : TracksVisits false [site.classRef] visit) (hsite : site.classRef ∈ known)

include hvisit hsite

theorem tracks_superCall (key : NodeId) (arguments : List NodeId) (range : Option Range) :
    Tracks top false known (key :: arguments) (superCall site visit key arguments range)
      fun id => [id] := by
  refine (hvisit.list (by simpa) arguments).bind [key] (by grind) fun elements => ?_
  refine (tracks_append (.array elements) none).bind [key] ?_ fun array => ?_
  · exact .refl _ _
  · exact (tracks_helperCall hsite _ key [array] range).congr (by grind)

theorem tracks_expandKey (key : MemberKey NodeId) :
    Tracks top false known key.operands (expandKey visit key) fun id => [id] := by
  cases key with
  | named name => exact tracks_append (.literal (.string name)) none
  | computed index => exact hvisit.one (by simpa) index

theorem tracks_bindKey (key : MemberKey NodeId) :
    Tracks top false known key.operands (bindKey visit key) fun out => out.2.toList := by
  cases key with
  | named name => exact tracks_pure (StableKey.named name, none) fun out => out.2.toList
  | computed index =>
    refine (hvisit.one (by simpa) index).bind [] (.refl _ _) fun index => ?_
    refine tracks_allocate.next fun _ => (tracks_synth (List.nil_subset _)).next fun target => ?_
    refine (tracks_append (.binary target "=" index) none).bind [] ?_ fun assignment => ?_
    · grind [Shape.kept, Shape.children]
    · exact tracks_pure (StableKey.temp _, some assignment) fun out => out.2.toList

theorem tracks_expandCompound (access : SuperAccess NodeId) (operator : String) (value : NodeId)
    (range : Option Range) :
    Tracks top false known (access.key.operands ++ [value])
      (expandCompound site visit access operator value range) fun id => [id] := by
  refine (tracks_bindKey hvisit hsite access.key).bind [value] (.refl _ _) fun (key, init) => ?_
  refine (hvisit.one (by simpa) value).bind init.toList (by grind) fun value => ?_
  refine (tracks_emit key).next fun k => ?_
  refine Tracks.next ((tracks_helperCall (by simp [hsite]) _ k [] none).settle (by simp))
    fun current => (tracks_emit key).next fun target => ?_
  split
  case isTrue =>
    refine (tracks_helperCall (by simp [hsite]) _ target [value] none).bind init.toList
      (by grind) fun set => ?_
    refine (tracks_append (.binary current operator set) _).bind init.toList
      (by grind [Shape.kept, Shape.children]) fun guarded => ?_
    exact (tracks_sequence init guarded range).congr (by grind)
  case isFalse =>
    refine (tracks_append (.binary current operator value) none).bind init.toList
      (by grind [Shape.kept, Shape.children]) fun next => ?_
    refine (tracks_helperCall (by simp [hsite]) _ target [next] _).bind init.toList
      (by grind) fun set => ?_
    exact (tracks_sequence init set range).congr (by grind)

theorem tracks_expandUpdate (access : SuperAccess NodeId) (operator : String)
    (range : Option Range) :
    Tracks top false known access.key.operands (expandUpdate site visit access operator range)
      fun id => [id] := by
  refine (tracks_bindKey hvisit hsite access.key).bind [] (by grind) fun (key, init) => ?_
  refine (tracks_emit key).next fun k => ?_
  refine Tracks.next ((tracks_helperCall (by simp [hsite]) _ k [] none).settle (by simp))
    fun current => ?_
  refine (tracks_synth (by simp [Shape.kept, Shape.children])).next fun numeric => ?_
  refine (tracks_synth (List.nil_subset _)).next fun one => ?_
  refine (tracks_synth (by simp [Shape.kept, Shape.children])).next fun next => ?_
  refine (tracks_emit key).next fun target => ?_
  refine Tracks.next ((tracks_helperCall (by simp [hsite]) _ target [next] _).settle (by simp))
    fun set => ?_
  exact (tracks_sequence init set range).congr (by grind)

omit hsite in
theorem traced_expandStrayCall {session : Session LoweringState} {id word : NodeId}
    {arguments : List NodeId} (range : Option Range)
    (hword : session.store.SameDebt [site.classRef] [word] [])
    (hsame : session.store.SameDebt [site.classRef] [id] arguments) :
    Traced false [site.classRef] [id] session (fun id' => [id'])
      (exec (expandStrayCall visit id word arguments range) session) := by
  refine (tracks_range? word session rfl).bind (r := [id]) fun _ session₁ _ hle₁ _ _ => ?_
  refine (tracks_reportSuper _ _ session₁ rfl).bind (r := [id]) fun _ session₂ _ hle₂ _ _ => ?_
  have hsame := hsame.mono (hle₁.trans hle₂)
  have hvisits := hvisit.list (List.Subset.refl _) arguments session₂ rfl
  refine (hvisits.bind (r := []) fun expanded session₃ _ hle₃ _ _ => ?_).congr
    (by rwa [List.append_nil])
  rw [List.append_nil]
  split
  case isTrue heq => exact ⟨le_rfl, rfl, heq ▸ (hsame.mono hle₃).symm, by simp⟩
  case isFalse =>
    have hword := hword.mono (hle₁.trans (hle₂.trans hle₃))
    exact (tracks_append (.call word expanded) range session₃ rfl).congr
      (hword.append (.refl _ expanded)).symm

omit hsite in
/-- A use of `super` passes on what is below its operands. -/
theorem traced_expandUse {session : Session LoweringState} {id : NodeId} {node : Node}
    (found : session.store.get? id = some node) {use : SuperUse NodeId}
    (role : session.store.superRole id node.shape = .use use) (range : Option Range) :
    Traced false [site.classRef] [id] session (fun id' => [id'])
      (exec (expandUse site visit id range use) session) := by
  have hsame := Store.SameDebt.operands [site.classRef] found role
  have hsite : site.classRef ∈ [site.classRef] := List.mem_singleton_self _
  have hoperands {e : Lowering NodeId} (h : Tracks session.state.top? false [site.classRef]
      use.operands e fun id => [id]) :
      Traced false [site.classRef] [id] session (fun id' => [id']) (exec e session) :=
    (h session rfl).congr hsame
  cases use with
  | call word arguments =>
    rw [expandUse]
    split
    case isTrue =>
      refine hoperands ((tracks_synth (List.nil_subset _)).next fun key => ?_)
      exact (tracks_superCall hvisit (by simp) key arguments range).congr
        (by grind [SuperUse.operands])
    case isFalse =>
      have huse := Shape.isUse_of_superRole role
      generalize node.shape = shape at huse
      cases huse with
      | call word => exact traced_expandStrayCall hvisit range (.of_word word) hsame
  | methodCall access arguments =>
    refine hoperands ((tracks_expandKey hvisit hsite access.key).bind arguments (.refl _ _)
      fun key => ?_)
    exact tracks_superCall hvisit hsite key arguments range
  | assign access value =>
    refine hoperands ((tracks_expandKey hvisit hsite access.key).bind [value] (.refl _ _)
      fun key => (hvisit.one (List.Subset.refl _) value).bind [key] (by grind) fun value => ?_)
    exact (tracks_helperCall hsite _ key [value] range).congr (by grind)
  | compound access operator value =>
    exact hoperands (tracks_expandCompound hvisit hsite access operator value range)
  | update access operator =>
    exact hoperands (tracks_expandUpdate hvisit hsite access operator range)
  | get access =>
    refine hoperands ((tracks_expandKey hvisit hsite access.key).bind []
      (by grind [SuperUse.operands]) fun key => ?_)
    exact tracks_helperCall hsite _ key [] range
  | bare =>
    have hreport : Tracks session.state.top? false [site.classRef] [id] (do
        reportSuper range .bareSuper
        return id) fun id' => [id'] :=
      (tracks_reportSuper _ _).next fun _ => tracks_pure id fun id => [id]
    exact hreport session rfl

omit hsite in
/-- A class passes on what is below its heritage, and keeps the rest. -/
theorem traced_expandHeritage {session : Session LoweringState} {id : NodeId} {node : Node}
    (found : session.store.get? id = some node) :
    Traced false [site.classRef] [id] session (fun id' => [id'])
      (exec (expandHeritage visit id node) session) := by
  have hrebuild (heritage : NodeId) (rest : List NodeId) (build : NodeId → Shape NodeId)
      (hkept : node.shape.kept = (build heritage).kept)
      (hbuild : ∀ expanded, Accounts [site.classRef] (expanded :: rest) (build expanded).kept) :
      Traced false [site.classRef] [id] session (fun id' => [id']) (exec (do
        let expanded ← visit heritage
        if expanded = heritage then
          return id
        append (build expanded) node.range) session) := by
    have hsame : session.store.SameDebt [site.classRef] [id] ([heritage] ++ rest) :=
      (Store.SameDebt.of_found _ found).trans (hkept ▸ (.symm (.of_accounts (hbuild heritage))))
    refine ((hvisit _ heritage session rfl).bind (r := rest) fun expanded session₁ _ hle _ _ =>
      ?_).congr hsame
    split
    case isTrue heq => exact ⟨le_rfl, rfl, heq ▸ (hsame.mono hle).symm, by simp⟩
    case isFalse =>
      exact (tracks_append (build expanded) node.range).congr (hbuild expanded) session₁ rfl
  rw [expandHeritage]
  split
  case h_1 name heritage members hshape =>
    refine hrebuild heritage (name :: members) (fun h => .classDecl name (some h) members) ?_ ?_
    · rw [hshape]
    · grind [Shape.kept, Shape.children]
  case h_2 name heritage members hshape =>
    refine hrebuild heritage members (fun h => .classExpr name (some h) members) ?_ ?_
    · rw [hshape]
    · grind [Shape.kept]
  case h_3 => exact tracks_pure id (fun id => [id]) session rfl

end Expansion

/-- **The expansion of `super` looks at what is below a node.** -/
theorem tracks_expandNode (site : SuperSite) (height : Nat) :
    ∀ nested, TracksVisits false [site.classRef] (expandNode site height nested) := by
  induction height with
  | zero => exact fun _ _ _ => tracks_throw (by simp)
  | succ height ih =>
    intro nested top id session htop
    refine traced_node_bind (by simp) fun node found => traced_store_bind ?_
    have hwalk (nested : Bool) (hne : session.store.superRole id node.shape ≠ .nestedClass) :
        Traced false [site.classRef] [id] session (fun id' => [id'])
          (exec (walk (expandNode site height nested) id) session) := by
      have plain : node.shape.isClass = false :=
        Bool.eq_false_iff.mpr fun hclass => hne (Shape.superRole_of_isClass hclass)
      exact (ih nested).walk ⟨node, found, plain⟩
    cases role : session.store.superRole id node.shape with
    | use use =>
      cases nested with
      | true =>
        have hreport : Tracks top false [site.classRef] [id] (do
            reportSuper (← range? use.word) .superOutsideMember
            return id) fun id' => [id'] :=
          (tracks_range? _).next fun _ => (tracks_reportSuper _ _).next fun _ =>
            tracks_pure id fun id => [id]
        exact hreport session htop
      | false => exact traced_expandUse (ih false) found role node.range
    | nestedFunction => exact hwalk true (by simp [role])
    | nestedClass => exact traced_expandHeritage (ih nested) found
    | other => exact hwalk nested (by simp [role])

/-! ### Lowering -/

section Lowering

variable {top : Option NodeId} {known ids : List NodeId} {session : Session LoweringState}

/-- A walk of a construct that is no class returns one. -/
theorem ensures_isPlain_walk {visit : NodeId → Lowering NodeId} (h : ∀ id, Grows (visit id))
    {id : NodeId} (plain : session.store.IsPlain id) :
    Ensures session (walk visit id) fun id' session' => session'.store.IsPlain id' := by
  refine ensures_walk (V := fun _ _ _ => True)
    (fun ids => (Grows.mapM_length h ids session).imp fun _ _ _ hlength => ⟨hlength, trivial⟩) ?_ ?_
  · exact fun _ _ _ hle _ => plain.mono hle
  · intro node ids session' found _ _ _ _
    obtain ⟨_, found', plain⟩ := plain
    obtain rfl := Option.some.inj (found.symm.trans found')
    exact ⟨_, by rw [Store.get?_push, if_pos rfl], by rwa [Shape.isClass_refill]⟩

theorem tracks_release (number : Nat) : Tracks top true known [] (release number) fun _ => [] := by
  refine (tracks_modifyGetState fun _ => rfl).next fun released => ?_
  split
  · exact tracks_record _
  · exact tracks_return (List.nil_subset _)

theorem tracks_prependToBody {declaration body : NodeId} (h : [declaration, body] ⊆ known) :
    Tracks top true known [] (prependToBody declaration body) fun id => [id] := by
  refine tracks_node_bind (by grind) fun node => ?_
  split
  case h_1 statements hshape =>
    have hkept : node.shape.kept = statements := by rw [hshape]; rfl
    exact tracks_make _ (by grind [Shape.kept, Shape.children])
  case h_2 =>
    have hbody : (Shape.returnStatement (some body)).kept ⊆ node.shape.kept ++ known := by
      simp [Shape.kept, Shape.children]
      grind
    refine (tracks_make _ hbody).next fun statement => ?_
    exact tracks_make _ (by grind [Shape.kept, Shape.children])

theorem tracks_declareTemps (temps : List String) {id : NodeId} (h : id ∈ known) :
    Tracks top true known [] (declareTemps temps id) fun id => [id] := by
  have hdeclare : Tracks top true known [] (Build.declareAll temps) fun id => [id] := by
    have hdeclarator (name : String) : Tracks top true known []
        (do synth (.declarator (← synth (.binding name)) none)) fun id => [id] :=
      (tracks_synth (List.nil_subset _)).next fun _ =>
        tracks_synth (by simp [Shape.kept, Shape.children])
    exact (tracks_mapM fun name _ => hdeclarator name).bind_settled [] (by grind) fun _ =>
      tracks_synth (by simp [Shape.kept, Shape.children])
  refine (tracks_record _).next fun _ => hdeclare.next fun declaration => ?_
  refine tracks_node_bind (by simp [h]) fun node => ?_
  dsimp only
  split
  case h_1 statements hshape =>
    have hkept : node.shape.kept = statements := by rw [hshape]; rfl
    exact tracks_make _ (by grind [Shape.kept, Shape.children])
  case h_8 => exact tracks_throw (by simp)
  all_goals
    rename_i hshape
    rw [hshape]
    refine (tracks_prependToBody ?_).next fun body => tracks_make _ ?_
    · simp [Shape.kept, Shape.children]
    · grind [Shape.kept, Shape.children]

/-- A scope of temporaries: what is done in it, and then the declaration of what it holds. -/
theorem Ensures.inTempScope {e : Lowering NodeId}
    {Q R : NodeId → Session LoweringState → Prop}
    (h : Ensures { session with state.temps := session.state.temps.push } e Q)
    (empty : ∀ id session₁, Q id session₁ → session₁.state.temps.pop.1 = [] →
      R id { session₁ with state.temps := session₁.state.temps.pop.2 })
    (declare : ∀ id session₁, Q id session₁ → session₁.state.temps.pop.1 ≠ [] →
      Ensures { session₁ with state.temps := session₁.state.temps.pop.2 }
        (declareTemps (session₁.state.temps.pop.1.map Temps.name) id) R) :
    Ensures session (Lowering.inTempScope e) R := by
  refine ensures_modifyState_bind (ensures_attempt_bind h ?_ (by rintro fault session₁ _ _ ⟨⟩))
  intro lowered session₁ _ hq
  change Ensures { session₁ with state.temps := session₁.state.temps.pop.2 }
    (if session₁.state.temps.pop.1.isEmpty then pure lowered
      else declareTemps (session₁.state.temps.pop.1.map Temps.name) lowered) R
  split
  case isTrue hheld => exact ensures_pure (empty _ _ hq (List.isEmpty_iff.mp hheld))
  case isFalse hheld => exact declare _ _ hq (mt List.isEmpty_iff.mpr hheld)

/-- A scope of temporaries. -/
theorem Traced.inTempScope {e : Lowering NodeId}
    (h : Traced true known ids { session with state.temps := session.state.temps.push }
      (fun id => [id]) (exec e { session with state.temps := session.state.temps.push })) :
    Traced true known ids session (fun id => [id]) (exec (inTempScope e) session) := by
  refine traced_modifyState_bind rfl (h.attempt_bind le_rfl ?_ fun fault _ =>
    ⟨fault, _, rfl, .inl rfl⟩)
  intro id session₁ ⟨hle, hstack, hsame, hid⟩
  have hsettle : Tracks session₁.state.top? true ([id] ++ known) [] (settle (.ok id))
      fun id => [id] := tracks_return (by simp)
  refine .after (.congr (.absorb (Tracks.next (tracks_modifyGetState fun _ => rfl) (fun held =>
    hsettle.next fun id => ?_) session₁ rfl) (hid rfl)) (hsame.trans (hid rfl))) hle hstack
  split
  · exact tracks_return (by simp)
  · exact tracks_declareTemps _ (by simp)

theorem tracks_constructorProperty {id : NodeId} (h : id ∈ known) :
    Tracks top true known [] (constructorProperty id) fun id => [id] := by
  refine tracks_node_bind h fun node => ?_
  split
  case h_1 name parameters body hshape =>
    have hkept : node.shape.kept = parameters ++ [body] := by rw [hshape]; rfl
    refine (tracks_make _ (by grind [Shape.kept, Shape.children])).next fun function => ?_
    exact tracks_make _ (by simp [Shape.kept, Shape.children])
  case h_2 => exact tracks_throw (by simp)

theorem tracks_defaultConstructor (hasBase : Bool) :
    Tracks top true known [] (defaultConstructor hasBase) fun id => [id] := by
  rw [defaultConstructor]
  split
  case isTrue =>
    refine ((tracks_synth (List.nil_subset _)).next fun _ =>
      tracks_synth (by simp [Shape.kept, Shape.children])).next fun parameter => ?_
    refine (tracks_synth (List.nil_subset _)).next fun callee => ?_
    refine (tracks_synth (List.nil_subset _)).next fun arguments => ?_
    refine (tracks_synth (by simp [Shape.kept, Shape.children])).next fun spread => ?_
    refine (tracks_synth (by simp [Shape.kept, Shape.children])).next fun call => ?_
    refine (tracks_synth (by simp [Shape.kept, Shape.children])).next fun statement => ?_
    refine (tracks_synth (by simp [Shape.kept, Shape.children])).next fun body => ?_
    exact tracks_synth (by simp [Shape.kept, Shape.children])
  case isFalse =>
    exact (tracks_synth (List.nil_subset _)).next fun _ =>
      tracks_synth (by simp [Shape.kept, Shape.children])

theorem ensures_isPlain_defaultConstructor (hasBase : Bool) (session : Session LoweringState) :
    Ensures session (defaultConstructor hasBase) fun id session' => session'.store.IsPlain id := by
  have hmethod (parameters : List NodeId) (body : NodeId) (session : Session LoweringState) :
      Ensures session (synth (.method (.identifier "constructor") parameters body))
        fun id session' => session'.store.IsPlain id :=
    (ensures_get?_append _ none).imp fun _ _ _ found => ⟨_, found, rfl⟩
  rw [defaultConstructor]
  split
  case isTrue =>
    refine ((Grows.synth _).bind fun _ => .synth _).ensures_bind fun parameter _ _ => ?_
    refine (Grows.synth _).ensures_bind fun _ _ _ => (Grows.synth _).ensures_bind fun _ _ _ => ?_
    refine (Grows.synth _).ensures_bind fun _ _ _ => (Grows.synth _).ensures_bind fun _ _ _ => ?_
    refine (Grows.synth _).ensures_bind fun _ _ _ => ?_
    refine (Grows.synth _).ensures_bind fun body _ _ => ?_
    exact hmethod [parameter] body _
  case isFalse => exact (Grows.synth _).ensures_bind fun body _ _ => hmethod [] body _

/-- The innermost class is at hand, if there is one. -/
theorem exec_currentClass (session : Session LoweringState) :
    (∃ context, exec currentClass session = (.ok context, session) ∧
      session.state.top? = some context.nameExpr) ∨
    exec currentClass session = (.error .unbalancedClassContext, session) := by
  obtain ⟨store, temps, _ | ⟨context, classes⟩, used, journal⟩ := session
  · exact .inr rfl
  · exact .inl ⟨context, rfl, rfl⟩

theorem tracks_markClass : Tracks top true known [] markClass fun _ => [] := by
  refine tracks_modifyState fun state => ?_
  rcases state with ⟨temps, _ | ⟨context, classes⟩, used, journal⟩ <;> rfl

theorem exec_pushClass (id nameExpr : NodeId) (session : Session LoweringState) :
    ∃ state, exec (pushClass id nameExpr) session = (.ok (), ⟨session.store, state⟩) ∧
      state.stack = (id, nameExpr) :: session.state.stack :=
  ⟨_, rfl, rfl⟩

/-- The class is put on top of the stack. -/
theorem ensures_pushClass (id nameExpr : NodeId) (session : Session LoweringState) :
    Ensures session (pushClass id nameExpr) fun _ session' =>
      session'.state.stack = (id, nameExpr) :: session.state.stack := by
  obtain ⟨state, hpush, hstack⟩ := exec_pushClass id nameExpr session
  intro _ _ run
  rw [hpush] at run
  cases run
  exact ⟨le_rfl, hstack⟩

/-- The innermost class comes off the stack, if there is one. -/
theorem exec_popClass (session : Session LoweringState) :
    (∃ context state, exec popClass session = (.ok context, ⟨session.store, state⟩) ∧
      state.stack = session.state.stack.tail) ∨
    exec popClass session = (.error .unbalancedClassContext, session) := by
  obtain ⟨store, temps, _ | ⟨context, classes⟩, used, journal⟩ := session
  · exact .inr rfl
  · exact .inl ⟨_, _, rfl, rfl⟩

/-- A lowering of members settles what is below a member, and looks at the expression that names the
class. -/
def TracksMembers (lower : MemberLowering) : Prop :=
  ∀ kind id session, session.store.IsPlain id →
    Traced true session.state.top?.toList [id] session (fun id' => [id'])
      (exec (lower kind id) session)

section Members

variable {lower : MemberLowering} (hlower : TracksMembers lower)

include hlower

/-- The lowering of a member is tracked. -/
theorem tracks_lowerProperty (id : NodeId) :
    Tracks top true top.toList [id] (lowerProperty lower id) fun out => [out.2] := by
  rintro session rfl
  refine traced_node_bind (by simp) fun node found => ?_
  have hmember {kind : MemberKind} (hkind : MemberKind.ofShape? node.shape = some kind) :=
    hlower kind id session
      ⟨node, found, Tree.isClass_of_ownsTemps (Tree.ownsTemps_of_ofShape? hkind)⟩
  split
  case h_1 hkind =>
    refine (hmember hkind).bind_settled (r := []) fun lowered session₁ _ _ _ => ?_
    exact (Tracks.next (tracks_constructorProperty (by simp)) fun property =>
      tracks_return (by simp)) session₁ rfl
  case h_2 kind _ hkind =>
    refine (hmember hkind).bind_settled (r := []) fun lowered session₁ _ _ _ => ?_
    exact tracks_return (by simp) session₁ rfl
  case h_3 => exact ⟨le_rfl, by rintro d ⟨⟩⟩

/-- The members of a class are charged with themselves. -/
theorem tracks_lowerMembers (members : List NodeId) (hasBase : Bool) :
    Tracks top true top.toList members (lowerMembers lower members hasBase) fun out => out.1 := by
  refine (tracks_mapM fun id _ => tracks_lowerProperty hlower id).bind_settled [] (by grind)
    fun lowered => ?_
  dsimp only
  split
  · exact tracks_return (by grind)
  · rintro session rfl
    refine Traced.bind_settled (r := []) (tracks_defaultConstructor hasBase session rfl)
      fun constructor session₁ hrun _ hstack => ?_
    have hplain := (ensures_isPlain_defaultConstructor hasBase session _ _ hrun).2
    have hlowered := hlower .constructor constructor session₁ hplain
    rw [top?_eq hstack] at hlowered
    refine ((hlowered.widen (by grind)).bind_settled (r := []) fun lowered session₂ _ _ _ =>
      ?_).congr (.of_accounts (by grind))
    exact (Tracks.next (tracks_constructorProperty (by simp)) fun property =>
      tracks_return (by grind)) session₂ rfl

variable {visit : NodeId → Lowering NodeId} (hvisit : TracksVisits true [] visit)
  (options : Options)

include hvisit

/-- A class is charged with its heritage and its members. -/
theorem tracks_lowerClass (id : NodeId) {nameExpr : NodeId} (hname : nameExpr ∈ known)
    (heritage : Option NodeId) (members : List NodeId) (range : Option Range) :
    Tracks top true known (heritage.toList ++ members)
      (lowerClass options lower visit id nameExpr heritage members range) fun out => [out.1] := by
  have hheritage : Tracks top true known heritage.toList (heritage.mapM visit)
      fun base => base.toList := by
    cases heritage with
    | none => exact tracks_return (List.nil_subset _)
    | some heritage =>
      exact (hvisit.one (List.nil_subset _) heritage).bind_settled [] (.refl _ _) fun base =>
        tracks_return (by simp)
  refine hheritage.bind_settled members (.refl _ _) fun base => ?_
  intro session htop
  obtain ⟨state, hpush, hstack⟩ := exec_pushClass id nameExpr session
  have htop : state.top? = some nameExpr := by rw [LoweringState.top?, hstack]; rfl
  have hmembers := (tracks_lowerMembers hlower members base.isSome ⟨session.store, state⟩
    htop).widen (k := base.toList ++ known) (by simp [hname])
  rw [exec_bind_of_ok hpush]
  refine hmembers.attempt_bind le_rfl ?_ fun fault session₂ => ?_
  · rintro ⟨properties, hasConstructor⟩ session₂ ⟨hle, hstack₂, hsame, hproperties⟩
    have hproperties := hproperties rfl
    rcases exec_popClass session₂ with ⟨context, state, hpop, hstack₃⟩ | hpop
    on_goal 2 =>
      rw [exec_bind_of_error hpop]
      exact ⟨hle, by simp⟩
    rw [hstack₂, hstack] at hstack₃
    rw [exec_bind_of_ok hpop]
    have hsettle : Tracks state.top? true (properties ++ (base.toList ++ known)) []
        (settle (.ok (properties, hasConstructor))) fun out => out.1 :=
      tracks_return (List.subset_append_left _ _)
    refine (((hsettle.next (fun (properties, hasConstructor) => ?_) ⟨session₂.store, state⟩
      rfl).absorb hproperties).congr (hsame.trans hproperties)).after hle hstack₃
    refine Tracks.next (tracks_synth (List.subset_append_left _ _)) fun object => ?_
    rcases base with _ | base
    on_goal 1 => refine (tracks_synth (List.nil_subset _)).next fun base => ?_
    on_goal 2 =>
      have hbase {known : List NodeId} (h : base ∈ known) :
          Tracks state.top? true known [] (pure base) fun id => [id] :=
        tracks_return (by simpa using h)
      refine (hbase (by simp)).next fun base => ?_
    all_goals
      refine (tracks_synth (List.nil_subset _)).next fun hasConstructorArgument => ?_
      refine (tracks_synth (List.nil_subset _)).next fun hasBaseArgument => ?_
      refine (tracks_helper _ _).next fun callee => ?_
      refine (tracks_make _ (by grind [Shape.kept, Shape.children])).next fun call => ?_
      exact (tracks_record _).next fun _ => tracks_return (by simp)
  · rcases exec_popClass session₂ with ⟨context, state, hpop, -⟩ | hpop
    · exact ⟨fault, state, by rw [exec_bind_of_ok hpop]; rfl, .inl rfl⟩
    · exact ⟨_, _, exec_bind_of_error hpop, .inr (by simp)⟩

/-- A class declaration is charged with its name besides. -/
theorem tracks_lowerClassDecl (id name : NodeId) (heritage : Option NodeId)
    (members : List NodeId) (range : Option Range) :
    Tracks top true known (name :: (heritage.toList ++ members))
      (lowerClassDecl options lower visit id name heritage members range) fun id => [id] := by
  have hname : Tracks top true known [name]
      (do settle ((← store).identifierText name) : Lowering String) fun _ => [name] := by
    intro session htop
    refine traced_store_bind ?_
    cases found : session.store.get? name with
    | none =>
      rw [Store.identifierText, Store.node, found]
      refine ⟨le_rfl, ?_⟩
      rintro d ⟨⟩
      exact Store.owes_of_missing found (by simp)
    | some node =>
      obtain ⟨shape, range⟩ := node
      rw [Store.identifierText, Store.node, found]
      have hsame := Store.SameDebt.of_found known found
      cases shape with
      | binding name | identifier name => exact ⟨le_rfl, rfl, .refl _ _, fun _ => hsame⟩
      | _ => exact ⟨le_rfl, by rintro d ⟨⟩⟩
  refine hname.bind_settled (heritage.toList ++ members) (.refl _ _) fun className => ?_
  refine (tracks_synth (List.nil_subset _)).next fun nameExpr => ?_
  refine (tracks_lowerClass hlower hvisit options id (by simp) heritage members range).bind_settled
    [] (by grind) fun out => ?_
  refine (tracks_make _ (by grind [Shape.kept, Shape.children])).next fun declarator => ?_
  exact tracks_make _ (by simp [Shape.kept, Shape.children])

theorem tracks_lowerClassExpr (id : NodeId) (heritage : Option NodeId) (members : List NodeId)
    (range : Option Range) :
    Tracks top true known (heritage.toList ++ members)
      (lowerClassExpr options lower visit id heritage members range) fun id => [id] := by
  refine tracks_allocate.next fun number => (tracks_synth (List.nil_subset _)).next fun _ => ?_
  refine (tracks_lowerClass hlower hvisit options id (by simp) heritage members range).bind_settled
    [] (by grind) fun (call, used) => ?_
  dsimp only
  split
  · refine (tracks_synth (List.nil_subset _)).next fun target => ?_
    refine (tracks_synth (by simp [Shape.kept, Shape.children])).next fun assignment => ?_
    exact tracks_make _ (by simp [Shape.kept, Shape.children])
  · exact (tracks_release number).next fun _ => tracks_return (by simp)

end Members

/-- **The lowering of a node looks at all that is below it,** and at nothing else. -/
theorem tracks_lowerNode {lower : MemberLowering} (hlower : TracksMembers lower) (options : Options)
    (height : Nat) : TracksVisits true [] (lowerNode options lower height) := by
  induction height with
  | zero => exact fun _ _ => tracks_throw (by simp)
  | succ height ih =>
    intro top id session htop
    refine traced_node_bind (by simp) fun node found => ?_
    have hwalk (state : LoweringState) (plain : node.shape.isClass = false) :
        Traced true [] [id] ⟨session.store, state⟩ (fun id' => [id'])
          (exec (walk (lowerNode options lower height) id) ⟨session.store, state⟩) :=
      ih.walk ⟨node, found, plain⟩
    have hsame := Store.SameDebt.of_found [] found
    split
    case h_1 name heritage members hshape =>
      rw [hshape] at hsame
      exact (tracks_lowerClassDecl hlower ih options id name heritage members _ session htop).congr
        hsame
    case h_2 name heritage members hshape =>
      rw [hshape] at hsame
      exact (tracks_lowerClassExpr hlower ih options id heritage members _ session htop).congr hsame
    case h_3 hshape => exact .inTempScope (hwalk _ (by rw [hshape]; rfl))
    case h_4 =>
      have plain : node.shape.isClass = false := by grind [Shape.isClass]
      split
      · exact .inTempScope (hwalk _ plain)
      · exact hwalk _ plain

/-- The expansion of a member looks at what is below it, and at the name of its class. -/
theorem traced_expandOwnMember (options : Options) (kind : MemberKind) {id : NodeId}
    (plain : session.store.IsPlain id) :
    Traced false session.state.top?.toList [id] session (fun id' => [id'])
      (exec (expandOwnMember options kind id) session) := by
  rcases exec_currentClass session with ⟨context, hcurrent, htop⟩ | hcurrent
  · rw [htop, expandOwnMember, exec_bind_of_ok hcurrent]
    have hexpand : Traced false [context.nameExpr] [id] session (fun out => [out.1])
        (exec (expandMember ⟨context.nameExpr, options.runtimeName, kind⟩ id) session) := by
      refine traced_modifyState_bind rfl (traced_store_bind (Traced.bind (r := [])
        ((tracks_expandNode _ _ false).walk (by exact plain)) fun member session₁ _ _ _ _ => ?_))
      exact (tracks_state.next fun state => tracks_pure (member, state.usedSuper)
        fun out => [out.1]) session₁ rfl
    refine hexpand.bind (r := []) fun (member, used) session₁ _ _ _ _ => ?_
    dsimp only
    split
    · exact (tracks_markClass.next fun _ => tracks_pure member fun id => [id]) session₁ rfl
    · exact tracks_pure member (fun id => [id]) session₁ rfl
  · rw [expandOwnMember, exec_bind_of_error hcurrent]
    exact ⟨le_rfl, by simp⟩

/-- The expansion of a member that is no class is none either. -/
theorem ensures_isPlain_expandOwnMember (options : Options) (kind : MemberKind) {id : NodeId}
    (session : Session LoweringState) (plain : session.store.IsPlain id) :
    Ensures session (expandOwnMember options kind id) fun id' session' =>
      session'.store.IsPlain id' := by
  have hexpand (site : SuperSite) : Ensures session (expandMember site id) fun out session' =>
      session'.store.IsPlain out.1 := by
    refine ensures_modifyState_bind (ensures_store_bind ?_)
    refine (ensures_isPlain_walk (fun id => ((tracks_expandNode site _ false).steady id).grows)
      (by exact plain)).bind fun member session₁ _ hmember => ?_
    exact ensures_state_bind (ensures_pure hmember)
  intro member session' run
  rcases exec_currentClass session with ⟨context, hcurrent, -⟩ | hcurrent
  · rw [expandOwnMember, exec_bind_of_ok hcurrent] at run
    refine Ensures.bind (hexpand _) (S := fun id' session' => session'.store.IsPlain id')
      (fun (member, used) session₁ _ hmember => ?_) member session' run
    dsimp only
    split
    · exact ensures_modifyState_bind (ensures_pure hmember)
    · exact ensures_pure hmember
  · rw [expandOwnMember, exec_bind_of_error hcurrent] at run
    cases run

/-- **Members are tracked**, however deep classes are nested. -/
theorem tracks_lowerMember (options : Options) (nesting : Nat) :
    TracksMembers (lowerMember options nesting) := by
  induction nesting with
  | zero => exact fun _ _ _ _ => ⟨le_rfl, by simp⟩
  | succ nesting ih =>
    intro kind id session plain
    refine .inTempScope (Traced.bind (r := [])
      (traced_expandOwnMember options kind (by exact plain)) fun member session₁ hrun _ _ _ =>
        traced_store_bind ?_)
    have plain := (ensures_isPlain_expandOwnMember options kind _ (by exact plain) _ _ hrun).2
    exact ((tracks_lowerNode ih options _).walk plain).widen (List.nil_subset _)

/-- **What is missing when a program has been lowered.** -/
theorem lowerProgram_traced (options : Options) (root : NodeId) (session : Session LoweringState) :
    Traced true [] [root] session (fun id => [id]) (exec (lowerProgram options root) session) := by
  have hroot (bound : Nat) (event : NodeId → Log.Event) : Tracks session.state.top? true [] [root]
      (do
        let lowered ← lowerNode options (lowerMember options bound) bound root
        record (event lowered)
        return lowered) fun id => [id] :=
    (tracks_lowerNode (tracks_lowerMember options bound) options bound _ root).bind_settled []
      (.refl _ _) fun lowered => (tracks_record _).next fun _ => tracks_return (by simp)
  refine traced_modifyState_bind rfl (Traced.attempt_bind le_rfl
    (traced_store_bind (hroot _ _ _ rfl)) ?_ ?_)
  · exact fun lowered session₁ htraced => htraced
  · exact fun fault _ => ⟨fault, _, rfl, .inl rfl⟩

end Lowering

end Declass
