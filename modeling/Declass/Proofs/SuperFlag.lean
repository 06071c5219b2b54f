import Declass.Proofs.Placement
import Declass.Proofs.Success

/-!
# Whether a member uses `super`

The expansion of a member says whether `super` is used in it, and the lowering of a class expression
relies on that: it keeps a temporary for the class if a member says so, and gives it back otherwise.
This module shows that the answer is exact. A member that has a use of `super` of its own comes back
as another node, and the answer is yes; one that has none comes back as it was, the answer is no,
and neither the store nor the temporaries have been touched.

That the three go together is a matter of the run alone, on whatever store: the one place where the
flag is set makes a node, and a walk makes a new node from there up to the member. What they have to
do with the uses of `super` in the source is then read off the trees.

## Main definitions

* `Shape.superParts`, `Tree.HasSuper` — uses of `super` that belong to the member around a tree
* `Settles` — an edit that does nothing, or uses `super` and returns something new

## Main results

* `Tree.hasSuper_iff` — a tree has `super` iff a use of it is expanded
* `expandNode_settles` — a node stays, or `super` is used
* `expandMember_exact` — the flag of a member is exact
-/

namespace Declass

open Edit Lowering

/-! ### Uses of `super` that belong to a member -/

/-- The parts of a construct in which `super` is that of the construct: none in functions other than
arrows, the heritage in classes, and all in the rest. -/
def Shape.superParts {α : Type} : Shape α → List α
  | .functionDecl .. | .functionExpr .. | .method .. | .getter .. | .setter .. => []
  | .classDecl _ heritage _ | .classExpr _ heritage _ => heritage.toList
  | shape => shape.children

namespace Tree

/-- `super(…)` -/
def isSuperCall (t : Tree) : Bool :=
  match t.shape with
  | .call callee _ => callee.shape.isSuper
  | _ => false

/-- In the tree there is a use of `super` that belongs to the member around it and is in its place
there: an access, or in a constructor a call. -/
inductive HasSuper (kind : MemberKind) : Tree → Prop where
  | access {t : Tree} (here : t.isSuperAccess = true) : HasSuper kind t
  | call {t : Tree} (here : t.isSuperCall = true) (constructor : kind = .constructor) :
      HasSuper kind t
  | part {t c : Tree} (hc : c ∈ t.shape.superParts) (below : HasSuper kind c) : HasSuper kind t

section

variable {kind : MemberKind} {t : Tree}

theorem superRole_of_isSuperAccess (h : t.isSuperAccess = true) :
    ∃ access, t.superRole = .use (.get access) := by
  obtain ⟨o, s, r⟩ := t
  rw [isSuperAccess_eq] at h
  cases s with
  | member target | lookup target =>
    have hword : target.shape.isSuper = true := h
    simp [superRole, Shape.superRole, Shape.superAccess?, hword]
  | _ => cases h

theorem superRole_of_isSuperCall (h : t.isSuperCall = true) :
    ∃ word arguments, t.superRole = .use (.call word arguments) := by
  obtain ⟨o, s, r⟩ := t
  cases s with
  | call callee =>
    have hword : callee.shape.isSuper = true := h
    simp [superRole, Shape.superRole, hword]
  | _ => cases h

theorem isSuperAccess_of_superAccess? {access : SuperAccess Tree}
    (h : t.shape.superAccess? (fun c => some c.shape) = some access) : t.isSuperAccess = true :=
  Option.isSome_of_eq_some h

theorem superParts_of_other (role : t.superRole = .other) :
    t.shape.superParts = t.shape.children := by
  obtain ⟨o, s, r⟩ := t
  cases s <;> first | rfl | cases role

theorem superParts_of_nestedFunction (role : t.superRole = .nestedFunction) :
    t.shape.superParts = [] := by
  rw [superRole] at role
  unfold Shape.superRole at role
  split at role <;> first | rfl | grind [Shape.superParts]

theorem superParts_of_classParts? {s : Shape Tree} {parts : ClassParts Tree}
    (h : s.classParts? = some parts) : s.superParts = parts.heritage.toList := by
  cases s with
  | classDecl | classExpr =>
    cases h
    rfl
  | _ => cases h

/-- A use of `super` that is expanded is in its place. -/
theorem hasSuper_of_isExpanded (h : t.isExpanded kind = true) : t.HasSuper kind := by
  rw [isExpanded] at h
  split at h
  case h_2 => cases h
  case h_1 use role =>
    have target {c : Tree} {access : SuperAccess Tree}
        (h : (some c.shape).bind (Shape.superAccess? fun c => some c.shape) = some access) :
        c.HasSuper kind :=
      .access (isSuperAccess_of_superAccess? h)
    obtain ⟨o, s, r⟩ := t
    cases Shape.isUse_of_superRole role with
    | call word => exact .call word (by simpa [SuperUse.isExpanded] using h)
    | methodCall access | assign access | compound access | update access =>
      exact .part (by simp [Shape.superParts, Shape.children]) (target access)
    | get access => exact .access (isSuperAccess_of_superAccess? access)
    | bare => cases h

theorem hasSuper_of_superScopes (h : t.superScopes kind ≠ []) : t.HasSuper kind := by
  induction hheight : t.height using Nat.strong_induction_on generalizing t with
  | _ height ih =>
    by_cases hroot : t.isExpanded kind = true
    · exact hasSuper_of_isExpanded hroot
    · have hvisit : ∃ v ∈ t.visits, v.1.superScopes kind ≠ [] := by
        rw [superScopes_eq, if_neg hroot, List.nil_append, Ne, List.flatMap_eq_nil_iff] at h
        push Not at h
        simpa using h
      obtain ⟨v, hv, hscopes⟩ := hvisit
      have below : v.1.HasSuper kind := ih _ (hheight ▸ height_visit_lt hv) hscopes rfl
      refine .part ?_ below
      -- Only in a call outside of a constructor are parts looked at without the use being expanded.
      rw [visits] at hv
      split at hv
      case h_1 use role =>
        obtain ⟨c, hc, rfl⟩ := List.mem_map.mp hv
        rw [isExpanded, role] at hroot
        cases use with
        | call word arguments =>
          rw [Shape.eq_call_of_superRole role]
          exact List.mem_cons_of_mem _ hc
        | bare => cases hc
        | _ => exact absurd rfl hroot
      case h_2 => cases hv
      case h_3 role =>
        obtain ⟨parts, hparts, hv⟩ := List.mem_flatMap.mp hv
        obtain ⟨c, hc, rfl⟩ := List.mem_map.mp hv
        rwa [superParts_of_classParts? (Option.mem_toList.mp hparts)]
      case h_4 role =>
        rw [superParts_of_other role]
        exact Shape.mem_children_of_mem_placed hv

theorem superScopes_of_isSuper {c : Tree} (h : c.shape.isSuper = true) :
    c.superScopes kind = [] := by
  have role : c.superRole = .use (.bare c) := by
    rw [superRole, shape_eq_superExpr h]
    rfl
  rw [superScopes_use role]
  rfl

/-- **A tree has `super` iff a use of it is expanded.** -/
theorem hasSuper_iff : t.HasSuper kind ↔ t.superScopes kind ≠ [] := by
  refine ⟨fun h => ?_, hasSuper_of_superScopes⟩
  induction h with
  | access here =>
    obtain ⟨access, role⟩ := superRole_of_isSuperAccess here
    simp [superScopes_use role, SuperUse.isExpanded]
  | call here constructor =>
    obtain ⟨word, arguments, role⟩ := superRole_of_isSuperCall here
    simp [superScopes_use role, SuperUse.isExpanded, constructor]
  | @part t c hc _ ih =>
    cases role : t.superRole with
    | use use =>
      rw [superScopes_use role]
      cases use with
      | call word arguments =>
        -- The word alone is not expanded, so `super` is in an argument.
        have huse := Shape.isUse_of_superRole role
        rw [Shape.eq_call_of_superRole role] at hc huse
        cases huse with
        | call hword =>
          rcases List.mem_cons.mp hc with rfl | hc
          · exact absurd (superScopes_of_isSuper hword) ih
          · simp only [Ne, List.append_eq_nil_iff, List.flatMap_eq_nil_iff, not_and]
            exact fun _ hnil => ih (hnil c hc)
      | bare word =>
        have huse := Shape.isUse_of_superRole role
        generalize t.shape = s at hc huse
        cases huse with
        | bare => cases hc
      | _ => exact List.cons_ne_nil _ _
    | nestedFunction =>
      rw [superParts_of_nestedFunction role] at hc
      cases hc
    | nestedClass =>
      obtain ⟨parts, hparts⟩ : ∃ parts, t.shape.classParts? = some parts := by
        have hclass := Shape.isClass_of_superRole role
        generalize t.shape = s at hclass
        cases s <;> first | exact ⟨_, rfl⟩ | cases hclass
      rw [superParts_of_classParts? hparts] at hc
      rw [superScopes_class hparts, Ne, List.flatMap_eq_nil_iff]
      exact fun hnil => ih (hnil c hc)
    | other =>
      rw [superParts_of_other role] at hc
      rw [superScopes_other role, Ne,
        flatMap_placed_eq_nil_iff (isClass_of_superRole_ne (by simp [role]))]
      exact fun hnil => ih (hnil c hc)

instance decidableHasSuper (kind : MemberKind) (t : Tree) : Decidable (t.HasSuper kind) :=
  decidable_of_iff _ hasSuper_iff.symm

end

end Tree

/-! ### Runs that do nothing or use `super` -/

variable {session session₁ session' : Session LoweringState}

/-- The store, the temporaries and the flag are as they were. -/
structure Untouched (session session' : Session LoweringState) : Prop where
  store : session'.store = session.store
  temps : session'.state.temps = session.state.temps
  usedSuper : session'.state.usedSuper = session.state.usedSuper

theorem Untouched.trans (h₁ : Untouched session session₁) (h₂ : Untouched session₁ session') :
    Untouched session session' :=
  ⟨h₂.store.trans h₁.store, h₂.temps.trans h₁.temps, h₂.usedSuper.trans h₁.usedSuper⟩

/-- Nothing has been done and the same has come back, or `super` has been used and something else
has come back. -/
def Settles {α : Type} (session : Session LoweringState) (before after : α)
    (session' : Session LoweringState) : Prop :=
  (after = before ∧ Untouched session session') ∨
    (after ≠ before ∧ session'.state.usedSuper = true)

namespace Settles

variable {α : Type} {a b : α} {as bs : List α}

theorem refl (a : α) : Settles session a a session :=
  .inl ⟨rfl, rfl, rfl, rfl⟩

theorem cons (head : Settles session a b session₁) (tail : Settles session₁ as bs session') :
    Settles session (a :: as) (b :: bs) session' := by
  rcases head, tail with ⟨⟨rfl, hhead⟩ | ⟨hne, hused⟩, ⟨rfl, htail⟩ | ⟨hne', hused'⟩⟩
  · exact .inl ⟨rfl, hhead.trans htail⟩
  · exact .inr ⟨by simp [hne'], hused'⟩
  · exact .inr ⟨by simp [hne], htail.usedSuper.trans hused⟩
  · exact .inr ⟨by simp [hne], hused'⟩

/-- If the same has come back, nothing has been done. -/
theorem untouched (h : Settles session a a session') : Untouched session session' :=
  h.elim And.right fun h => absurd rfl h.1

/-- If something else has come back, `super` has been used. -/
theorem used (h : Settles session a b session') (hne : b ≠ a) : session'.state.usedSuper = true :=
  h.elim (fun h => absurd h.1 hne) And.right

/-- What was done before has not been noticed. -/
theorem of_untouched (h₁ : Untouched session session₁) (h₂ : Settles session₁ a b session') :
    Settles session a b session' :=
  h₂.imp_left (.imp_right h₁.trans)

end Settles

/-- A node that is made is none of those there were. -/
theorem Store.nextId_ne {s s' : Store} {id : NodeId} {node : Node} (found : s.get? id = some node)
    (hle : s ≤ s') : s'.nextId ≠ id := by
  rintro rfl
  have hlt : s'.size < s.size := (isSome_get?_iff s s'.nextId).mp (by rw [found]; rfl)
  exact absurd (size_le_of_le hle) (Nat.not_le.mpr hlt)

/-- A report changes nothing but the journal. -/
theorem ensures_reportSuper_bind {β : Type} {range : Option Range} {message : Message}
    {g : Unit → Lowering β} {S : β → Session LoweringState → Prop}
    (h : ∀ journal, Ensures { session with state := { session.state with journal } } (g ()) S) :
    Ensures session (reportSuper range message >>= g) S := by
  rw [reportSuper, bind_assoc]
  exact ensures_modifyState_bind (ensures_modifyState_bind (h _))

section Visits

variable {visit : NodeId → Lowering NodeId}
  (hvisit : ∀ session id, Ensures session (visit id) (Settles session id))

include hvisit

theorem settles_mapM (ids : List NodeId) (session : Session LoweringState) :
    Ensures session (ids.mapM visit) fun ids' session' =>
      ids'.length = ids.length ∧ Settles session ids ids' session' :=
  .mapM (fun _ => .refl []) (fun _ _ => .cons) hvisit ids session

theorem settles_walk (id : NodeId) (session : Session LoweringState) :
    Ensures session (walk visit id) (Settles session id) := by
  refine ensures_walk (settles_mapM hvisit · session) ?_ ?_
  · intro node session' _ _ hids
    exact .inl ⟨rfl, hids.untouched⟩
  · intro node ids session' found hle hids hne _
    exact .inr ⟨Store.nextId_ne found hle, hids.used hne⟩

theorem settles_expandHeritage {id : NodeId} {node : Node}
    (found : session.store.get? id = some node) :
    Ensures session (expandHeritage visit id node) (Settles session id) := by
  have hrebuild (heritage : NodeId) (build : NodeId → Shape NodeId) :
      Ensures session (do
        let expanded ← visit heritage
        if expanded = heritage then
          return id
        append (build expanded) node.range) (Settles session id) := by
    refine (hvisit session heritage).bind fun expanded session₁ hle hexpanded => ?_
    split
    case isTrue hsame =>
      subst hsame
      exact ensures_pure (.inl ⟨rfl, hexpanded.untouched⟩)
    case isFalse hne =>
      exact ensures_append (.inr ⟨Store.nextId_ne found hle, hexpanded.used hne⟩)
  rw [expandHeritage]
  split
  case h_1 name heritage members _ =>
    exact hrebuild heritage fun h => .classDecl name (some h) members
  case h_2 name heritage members _ =>
    exact hrebuild heritage fun h => .classExpr name (some h) members
  case h_3 => exact ensures_pure (.refl id)

theorem settles_expandStrayCall {id word : NodeId} {arguments : List NodeId} {range : Option Range}
    {node : Node} (found : session.store.get? id = some node) :
    Ensures session (expandStrayCall visit id word arguments range) (Settles session id) := by
  refine ensures_range?_bind (ensures_reportSuper_bind fun journal => ?_)
  refine (settles_mapM hvisit arguments _).bind fun expanded session₁ hle hexpanded => ?_
  have hreport : Untouched session { session with state := { session.state with journal } } :=
    ⟨rfl, rfl, rfl⟩
  have hexpanded := hexpanded.2.of_untouched hreport
  split
  case isTrue hsame =>
    subst hsame
    exact ensures_pure (.inl ⟨rfl, hexpanded.untouched⟩)
  case isFalse hne =>
    exact ensures_append (.inr ⟨Store.nextId_ne found hle, hexpanded.used hne⟩)

end Visits

/-! ### Uses of `super` -/

/-- The edit uses `super` and makes a node that is not among the first `n`. -/
def Produces (n : Nat) (session : Session LoweringState) (e : Lowering NodeId) : Prop :=
  Ensures session e fun id session' => n ≤ id.index ∧ session'.state.usedSuper = true

section Produces

variable {α : Type} {n : Nat} {site : SuperSite}

/-- What comes before only appends. -/
theorem Grows.produces_bind {x : Lowering α} {f : α → Lowering NodeId} (hx : Grows x)
    (hn : n ≤ session.store.size)
    (hf : ∀ a session₁, n ≤ session₁.store.size → Produces n session₁ (f a)) :
    Produces n session (x >>= f) :=
  hx.ensures_bind fun a session₁ hle => hf a session₁ (hn.trans (Store.size_le_of_le hle))

theorem produces_append {shape : Shape NodeId} {range : Option Range} (hn : n ≤ session.store.size)
    (hused : session.state.usedSuper = true) : Produces n session (append shape range) :=
  ensures_append ⟨hn, hused⟩

theorem produces_helperCall (helper : Helper) (key : NodeId) (rest : List NodeId)
    (range : Option Range) (hn : n ≤ session.store.size) :
    Produces n session (helperCall site helper key rest range) := by
  refine (Grows.helper _ _).produces_bind hn fun callee session₁ hn => ?_
  refine (Grows.synth _).produces_bind hn fun receiver session₂ hn => ?_
  refine ensures_node_bind fun node _ => ?_
  refine (Grows.synth _).produces_bind hn fun classRef session₃ hn => ?_
  exact ensures_modifyState_bind (produces_append hn rfl)

theorem grows_helperCall (helper : Helper) (key : NodeId) (rest : List NodeId)
    (range : Option Range) : Grows (helperCall site helper key rest range) :=
  fun _ => (produces_helperCall helper key rest range (Nat.zero_le _)).imp fun _ _ _ _ => trivial

theorem grows_emit (key : StableKey) : Grows key.emit := by
  cases key <;> exact .synth _

theorem grows_allocate : Grows allocate :=
  fun _ => ensures_modifyGetState_bind (ensures_state_bind (ensures_modifyState_bind
    (ensures_pure trivial)))

variable {visit : NodeId → Lowering NodeId} (hvisit : ∀ id, Grows (visit id))

include hvisit

theorem produces_superCall (key : NodeId) (arguments : List NodeId) (range : Option Range)
    (hn : n ≤ session.store.size) :
    Produces n session (superCall site visit key arguments range) := by
  refine (Grows.mapM hvisit arguments).produces_bind hn fun elements session₁ hn => ?_
  refine (Grows.synth _).produces_bind hn fun array session₂ hn => ?_
  exact produces_helperCall .superCall key [array] range hn

theorem grows_expandKey (key : MemberKey NodeId) : Grows (expandKey visit key) := by
  cases key with
  | named => exact .synth _
  | computed index => exact hvisit index

theorem grows_bindKey (key : MemberKey NodeId) : Grows (bindKey visit key) := by
  cases key with
  | named => exact .pure _
  | computed index =>
    exact (hvisit index).bind fun _ => grows_allocate.bind fun _ => (Grows.synth _).bind fun _ =>
      (Grows.synth _).bind fun _ => .pure _

omit hvisit in
theorem produces_sequence {init : Option NodeId} {expression : NodeId} {range : Option Range}
    (hn : n ≤ session.store.size) (hexpression : n ≤ expression.index)
    (hused : session.state.usedSuper = true) :
    Produces n session (sequence init expression range) := by
  cases init with
  | none => exact ensures_pure ⟨hexpression, hused⟩
  | some init => exact ensures_append_bind (produces_append (by simp; omega) hused)

theorem produces_expandCompound (access : SuperAccess NodeId) (operator : String) (value : NodeId)
    (range : Option Range) (hn : n ≤ session.store.size) :
    Produces n session (expandCompound site visit access operator value range) := by
  refine (grows_bindKey hvisit access.key).produces_bind hn fun (key, init) session₁ hn => ?_
  refine (hvisit value).produces_bind hn fun value session₂ hn => ?_
  refine (grows_emit key).produces_bind hn fun k session₃ hn => ?_
  refine (grows_helperCall _ _ _ _).produces_bind hn fun current session₄ hn => ?_
  refine (grows_emit key).produces_bind hn fun target session₅ hn => ?_
  split
  case isTrue =>
    refine (produces_helperCall .superSet _ _ _ hn).bind fun set session₆ hle hset => ?_
    have hn := hn.trans (Store.size_le_of_le hle)
    exact ensures_append_bind (produces_sequence (by simp; omega) hn hset.2)
  case isFalse =>
    refine (Grows.synth _).produces_bind hn fun next session₆ hn => ?_
    refine (produces_helperCall .superSet _ _ _ hn).bind fun set session₇ hle hset => ?_
    exact produces_sequence (hn.trans (Store.size_le_of_le hle)) hset.1 hset.2

theorem produces_expandUpdate (access : SuperAccess NodeId) (operator : String)
    (range : Option Range) (hn : n ≤ session.store.size) :
    Produces n session (expandUpdate site visit access operator range) := by
  refine (grows_bindKey hvisit access.key).produces_bind hn fun (key, init) session₁ hn => ?_
  refine (grows_emit key).produces_bind hn fun k session₂ hn => ?_
  refine (grows_helperCall _ _ _ _).produces_bind hn fun current session₃ hn => ?_
  refine (Grows.synth _).produces_bind hn fun numeric session₄ hn => ?_
  refine (Grows.synth _).produces_bind hn fun one session₅ hn => ?_
  refine (Grows.synth _).produces_bind hn fun next session₆ hn => ?_
  refine (grows_emit key).produces_bind hn fun target session₇ hn => ?_
  refine (produces_helperCall .superSet _ _ _ hn).bind fun set session₈ hle hset => ?_
  exact produces_sequence (hn.trans (Store.size_le_of_le hle)) hset.1 hset.2

end Produces

/-- A node that is made by using `super` is another one. -/
theorem Produces.settles {id : NodeId} {node : Node} {e : Lowering NodeId}
    (h : Produces session.store.size session e) (found : session.store.get? id = some node) :
    Ensures session e (Settles session id) := by
  refine h.imp fun id' session' _ ⟨hid', hused⟩ => .inr ⟨?_, hused⟩
  rintro rfl
  have hlt := (Store.isSome_get?_iff session.store id').mp (by rw [found]; rfl)
  omega

theorem settles_expandUse {site : SuperSite} {visit : NodeId → Lowering NodeId}
    (hvisit : ∀ session id, Ensures session (visit id) (Settles session id)) {id : NodeId}
    {range : Option Range} {node : Node} (found : session.store.get? id = some node)
    (use : SuperUse NodeId) :
    Ensures session (expandUse site visit id range use) (Settles session id) := by
  have hgrows (id : NodeId) : Grows (visit id) :=
    fun session => (hvisit session id).imp fun _ _ _ _ => trivial
  have hkeyed (key : MemberKey NodeId) {f : NodeId → Lowering NodeId}
      (hf : ∀ k session₁, session.store.size ≤ session₁.store.size →
        Produces session.store.size session₁ (f k)) :
      Ensures session (expandKey visit key >>= f) (Settles session id) :=
    Produces.settles ((grows_expandKey hgrows key).produces_bind le_rfl hf) found
  cases use with
  | call word arguments =>
    rw [expandUse]
    split
    case isTrue =>
      refine Produces.settles ((Grows.synth _).produces_bind le_rfl fun key session₁ hn => ?_) found
      exact produces_superCall hgrows key arguments range hn
    case isFalse => exact settles_expandStrayCall hvisit found
  | methodCall access arguments =>
    exact hkeyed access.key fun key _ hn => produces_superCall hgrows key arguments range hn
  | assign access value =>
    exact hkeyed access.key fun key _ hn => (hgrows value).produces_bind hn fun value _ hn =>
      produces_helperCall .superSet key [value] range hn
  | compound access operator value =>
    exact (produces_expandCompound hgrows access operator value range le_rfl).settles found
  | update access operator =>
    exact (produces_expandUpdate hgrows access operator range le_rfl).settles found
  | get access =>
    exact hkeyed access.key fun key _ hn => produces_helperCall .superGet key [] range hn
  | bare =>
    exact ensures_reportSuper_bind fun journal => ensures_pure (.inl ⟨rfl, rfl, rfl, rfl⟩)

/-! ### Members -/

/-- **A node stays, or `super` is used.** -/
theorem expandNode_settles (site : SuperSite) (height : Nat) :
    ∀ (nested : Bool) (session : Session LoweringState) (id : NodeId),
      Ensures session (expandNode site height nested id) (Settles session id) := by
  induction height with
  | zero => exact fun _ _ _ => ensures_throw
  | succ height ih =>
    intro nested session id
    refine ensures_node_bind fun node found => ensures_store_bind ?_
    cases session.store.superRole id node.shape with
    | use use =>
      cases nested with
      | true =>
        refine ensures_range?_bind (ensures_reportSuper_bind fun journal => ?_)
        exact ensures_pure (.inl ⟨rfl, rfl, rfl, rfl⟩)
      | false => exact settles_expandUse (ih false) found use
    | nestedFunction => exact settles_walk (ih true) id session
    | nestedClass => exact settles_expandHeritage (ih nested) found
    | other => exact settles_walk (ih nested) id session

/-- A member stays and says no, or is made anew and says yes. -/
theorem expandMember_settles {s : Store} {site : SuperSite} {id member : NodeId} {used : Bool}
    {state : LoweringState}
    (run : exec (expandMember site id) ⟨s, state⟩ = (.ok (member, used), session)) :
    used = session.state.usedSuper ∧
      Settles ⟨s, { state with usedSuper := false }⟩ id member session := by
  have hensures : Ensures ⟨s, state⟩ (expandMember site id) fun out session =>
      out.2 = session.state.usedSuper ∧
        Settles ⟨s, { state with usedSuper := false }⟩ id out.1 session := by
    refine ensures_modifyState_bind (ensures_store_bind ?_)
    refine (settles_walk (expandNode_settles site s.walkBound false) id _).bind
      fun member session' _ hmember => ?_
    exact ensures_state_bind (ensures_pure ⟨rfl, hmember⟩)
  exact (hensures _ _ run).2

/-- **The flag of a member is exact.** The expansion of `super` in a member, for whatever kind of
member and for a class that is referred to by a name, succeeds. It says that `super` is used iff it
returns another node than the member, and iff there is a use of `super` in the member that belongs
to it and is in its place. If it says that `super` is not used, it has left the store and the
temporaries as they were. -/
theorem expandMember_exact {s : Store} {site : SuperSite} {id : NodeId} {c : String}
    {r : Option Range} (closed : s.Closed id) (acyclic : s.Acyclic id)
    (named : s.get? site.classRef = some ⟨.identifier c, r⟩) (state : LoweringState) :
    ∃ member used session,
      (expandMember site id).runOn ⟨s, state⟩ = (.ok (member, used), session) ∧
        (used = true ↔ member ≠ id) ∧
        (used = true ↔ ∃ t ∈ (s.tree s.size id).shape.children, t.HasSuper site.kind) ∧
        (used = false → session.store = s ∧ session.state.temps = state.temps) := by
  have hg : s.Grounded id := Store.grounded_iff.mpr ⟨closed, acyclic⟩
  obtain ⟨member, used, session, run, cs, -, hexpands⟩ :=
    expandMember_spec hg named s.size le_rfl state
  obtain ⟨hused, hsettles⟩ := expandMember_settles run
  refine ⟨member, used, session, run, ?_, ?_, fun hunused => ?_⟩
  · rcases hsettles with ⟨rfl, huntouched⟩ | ⟨hne, hyes⟩
    · simp [hused, huntouched.usedSuper]
    · simp [hused, hyes, hne]
  · have hiff := hexpands.used_iff
    simpa [View.memberAccount, LoweringState.view, ← hused, SuperSite.named, Tree.hasSuper_iff]
      using hiff
  · rcases hsettles with ⟨-, huntouched⟩ | ⟨-, hyes⟩
    · exact ⟨huntouched.store, huntouched.temps⟩
    · rw [hunused, hyes] at hused
      cases hused

/-- `m() { () => class extends super.B { n() { super.n; } }; }` and
`m() { class { n() { super.n; } }; }`, in a class `C`. -/
def innerClassStore : Store where
  nodes := #[⟨.identifier "C", none⟩, ⟨.superExpr, none⟩, ⟨.member ⟨1⟩ "n", none⟩,
    ⟨.exprStatement ⟨2⟩, none⟩, ⟨.block [⟨3⟩], none⟩, ⟨.method (.identifier "n") [] ⟨4⟩, none⟩,
    ⟨.superExpr, none⟩, ⟨.member ⟨6⟩ "B", none⟩, ⟨.classExpr none (some ⟨7⟩) [⟨5⟩], none⟩,
    ⟨.arrow [] ⟨8⟩, none⟩, ⟨.exprStatement ⟨9⟩, none⟩, ⟨.block [⟨10⟩], none⟩,
    ⟨.method (.identifier "m") [] ⟨11⟩, none⟩, ⟨.classExpr none none [⟨5⟩], none⟩,
    ⟨.exprStatement ⟨13⟩, none⟩, ⟨.block [⟨14⟩], none⟩, ⟨.method (.identifier "m") [] ⟨15⟩, none⟩]

/-- The heritage of a class in a member counts, and its members do not. -/
theorem expandMember_exact_innerClass :
    (∃ member session, (expandMember ⟨⟨0⟩, "$runtime", .method⟩ ⟨12⟩).runOn ⟨innerClassStore, {}⟩ =
        (.ok (member, true), session) ∧ member ≠ ⟨12⟩) ∧
      ∃ session, (expandMember ⟨⟨0⟩, "$runtime", .method⟩ ⟨16⟩).runOn ⟨innerClassStore, {}⟩ =
        (.ok (⟨16⟩, false), session) ∧ session.store = innerClassStore := by
  have fits : innerClassStore.Fits 17 ⟨12⟩ ∧ innerClassStore.Fits 17 ⟨16⟩ := by decide +kernel
  have named : innerClassStore.get? (SuperSite.classRef ⟨⟨0⟩, "$runtime", .method⟩) =
      some ⟨.identifier "C", none⟩ := rfl
  constructor
  · obtain ⟨closed, acyclic⟩ := Store.grounded_iff.mp fits.1.grounded
    obtain ⟨member, used, session, run, hchanged, huses, -⟩ :=
      expandMember_exact closed acyclic named {}
    obtain rfl : used = true := huses.mpr (by decide +kernel)
    exact ⟨member, session, run, hchanged.mp rfl⟩
  · obtain ⟨closed, acyclic⟩ := Store.grounded_iff.mp fits.2.grounded
    obtain ⟨member, used, session, run, hchanged, huses, hunused⟩ :=
      expandMember_exact closed acyclic named {}
    obtain rfl : used = false := Bool.eq_false_iff.mpr (huses.not.mpr (by decide +kernel))
    obtain rfl : member = ⟨16⟩ := by simpa using hchanged
    exact ⟨session, run, (hunused rfl).1⟩

end Declass
