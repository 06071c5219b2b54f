import Declass.Proofs.Misuses

/-!
# The `super`s that an expansion leaves

A `super` that is reported stays, and one that is expanded is gone. But not all that stay have been
looked at. In a function other than an arrow, a use of `super` is reported as a whole, and what is
inside of it is passed over: the key, the arguments, the value. In the name of a class, where no
`super` should be, none is looked for. This module lists the `super`s that stay in the order of the
code, each with what is reported on it.

## Main definitions

* `Tree.outerSupers` — the `super`s of a tree that are in no member of a class
* `Leftover`, `Tree.leftovers` — the `super`s that an expansion leaves

## Main results

* `Tree.misusesIn_eq_filterMap` — the reports are on leftovers
* `Expands.outerSupers_eq` — what stays are the leftovers
* `expandMember_leftovers` — the `super`s of an expanded member, and its reports
-/

namespace Declass

open Edit Lowering

/-! ### Outside of members -/

namespace Shape

variable {α β : Type}

/-- The name of a class, be it that of an expression. -/
def classNames : Shape α → List α
  | .classDecl name _ _ => [name]
  | .classExpr name _ _ => name.toList
  | _ => []

/-- The children of a construct that are not members of a class. -/
def besideMembers (s : Shape α) : List α :=
  match s.classParts? with
  | some parts => s.classNames ++ parts.heritage.toList
  | none => s.children

theorem classNames_map (f : α → β) (s : Shape α) :
    (s.map f).classNames = s.classNames.map f := by
  cases s with
  | classExpr name heritage members => exact Option.toList_map
  | _ => rfl

theorem besideMembers_map (f : α → β) (s : Shape α) :
    (s.map f).besideMembers = s.besideMembers.map f := by
  rw [besideMembers, besideMembers, classParts?_map]
  cases s.classParts? with
  | none => exact children_map f s
  | some parts => simp [classNames_map, ClassParts.map, Option.toList_map]

end Shape

namespace Tree

/-- The `super`s of a tree that are not in a member of a class, from left to right. -/
def outerSupers : Tree → List Tree :=
  para fun origin shape range =>
    ownSuper (.node origin (shape.map Prod.fst) range) ++ shape.besideMembers.flatMap Prod.snd

theorem outerSupers_eq (t : Tree) :
    t.outerSupers = t.ownSuper ++ t.shape.besideMembers.flatMap outerSupers := by
  obtain ⟨o, s, r⟩ := t
  have hself : (s.map fun c => (c, outerSupers c)).map Prod.fst = s := by
    rw [Shape.map_map]
    exact Shape.map_id s
  rw [outerSupers, para_node, ← outerSupers, hself, Shape.besideMembers_map]
  simp [List.flatMap_map]

theorem outerSupers_of_class {t : Tree} {parts : ClassParts Tree}
    (h : t.shape.classParts? = some parts) :
    t.outerSupers =
      t.shape.classNames.flatMap outerSupers ++ parts.heritage.toList.flatMap outerSupers := by
  have hown : t.ownSuper = [] := by
    refine ownSuper_eq_nil ?_
    generalize t.shape = s at h
    cases s <;> first | rfl | cases h
  rw [outerSupers_eq, hown, Shape.besideMembers, h, List.flatMap_append, List.nil_append]

theorem listsSupers_outerSupers : ListsSupers outerSupers where
  word {t} h := by
    rw [outerSupers_eq, ownSuper, if_pos h, shape_eq_superExpr h]
    rfl
  plain {t} plain h := by
    rw [outerSupers_eq, ownSuper_eq_nil h, Shape.besideMembers, Shape.classParts?_eq_none plain]
    rfl

end Tree

/-! ### Leftovers -/

/-- A `super` that stays, with the message that is reported on it, if there is one. -/
structure Leftover where
  /-- The word `super`. -/
  word : Tree
  message? : Option Message

namespace Leftover

/-- The report on a `super` that stays. -/
def misuse? (leftover : Leftover) : Option Misuse :=
  leftover.message?.map fun message => ⟨leftover.word, message⟩

/-- A `super` that is reported. -/
def ofMisuse (misuse : Misuse) : Leftover :=
  ⟨misuse.word, some misuse.message⟩

/-- A `super` that is passed over. -/
def silent (word : Tree) : Leftover :=
  ⟨word, none⟩

theorem filterMap_ofMisuse (misuses : List Misuse) :
    (misuses.map ofMisuse).filterMap misuse? = misuses := by
  rw [List.filterMap_map]
  exact List.filterMap_some

theorem filterMap_silent (words : List Tree) : (words.map silent).filterMap misuse? = [] := by
  rw [List.filterMap_map, List.filterMap_eq_nil_iff]
  exact fun _ _ => rfl

theorem map_word_silent (words : List Tree) : (words.map silent).map word = words := by
  rw [List.map_map]
  exact List.map_id words

/-- If all are reported, then each has its own report, with its range. -/
theorem map_range_diagnostic (bag : Bag) {leftovers : List Leftover}
    (h : ∀ leftover ∈ leftovers, leftover.message?.isSome) :
    ((leftovers.filterMap misuse?).map (Misuse.diagnostic bag)).map Diagnostic.range =
      (leftovers.map word).map Tree.range := by
  induction leftovers with
  | nil => rfl
  | cons leftover leftovers ih =>
    obtain ⟨⟨word, _ | message⟩, rest⟩ := leftover, List.forall_mem_cons.mp h
    · cases rest.1
    · exact congrArg (word.range :: ·) (ih rest.2)

end Leftover

namespace Tree

open Leftover

/-- The `super`s that stay at a construct without being looked at further. -/
def ownLeftovers (kind : MemberKind) (nested : Bool) (t : Tree) : List Leftover :=
  match t.superRole with
  | .use use => (use.misuse? kind nested).toList.map ofMisuse ++
      if nested then (use.operands.flatMap outerSupers).map silent else []
  | .nestedClass => (t.shape.classNames.flatMap outerSupers).map silent
  | _ => []

/-- The `super`s that stay when a tree in a member of a given kind is expanded, from left to right.
The Boolean says whether a function other than an arrow lies between the member and the tree. -/
def leftovers (kind : MemberKind) (nested : Bool) (t : Tree) : List Leftover :=
  t.ownLeftovers kind nested ++
    (t.inspected nested).attach.flatMap fun v => leftovers kind v.1.1 v.1.2
termination_by t.height
decreasing_by exact height_inspected_lt v.2

theorem leftovers_eq (kind : MemberKind) (nested : Bool) (t : Tree) :
    t.leftovers kind nested = t.ownLeftovers kind nested ++
      (t.inspected nested).flatMap fun v => v.2.leftovers kind v.1 := by
  have hattach : ((t.inspected nested).attach.flatMap fun v => v.1.2.leftovers kind v.1.1) =
      (t.inspected nested).attach.unattach.flatMap fun v => v.2.leftovers kind v.1 :=
    List.flatMap_subtype fun _ _ => rfl
  rw [leftovers, hattach, List.unattach_attach]

section Roles

variable {kind : MemberKind} {nested : Bool} {t : Tree}

theorem leftovers_nested_use {use : SuperUse Tree} (role : t.superRole = .use use) :
    t.leftovers kind true = ofMisuse ⟨use.word, .superOutsideMember⟩ ::
      (use.operands.flatMap outerSupers).map silent := by
  rw [leftovers_eq, ownLeftovers, inspected, role]
  simp [SuperUse.misuse?]

theorem leftovers_use {use : SuperUse Tree} (role : t.superRole = .use use) :
    t.leftovers kind false = (use.misuse? kind false).toList.map ofMisuse ++
      use.operands.flatMap (leftovers kind false) := by
  rw [leftovers_eq, ownLeftovers, inspected, role]
  simp [List.flatMap_map]

theorem leftovers_nestedFunction (role : t.superRole = .nestedFunction) :
    t.leftovers kind nested = t.shape.children.flatMap (leftovers kind true) := by
  rw [leftovers_eq, ownLeftovers, inspected, role]
  simp [List.flatMap_map]

theorem leftovers_other (role : t.superRole = .other) :
    t.leftovers kind nested = t.shape.children.flatMap (leftovers kind nested) := by
  rw [leftovers_eq, ownLeftovers, inspected, role]
  simp [List.flatMap_map]

theorem leftovers_class {parts : ClassParts Tree} (h : t.shape.classParts? = some parts) :
    t.leftovers kind nested = (t.shape.classNames.flatMap outerSupers).map silent ++
      parts.heritage.toList.flatMap (leftovers kind nested) := by
  have hclass : t.shape.isClass = true := by
    generalize t.shape = s at h
    cases s <;> first | rfl | cases h
  have role : t.superRole = .nestedClass := Shape.superRole_of_isClass hclass
  rw [leftovers_eq, ownLeftovers, inspected, role, h]
  simp [List.flatMap_map]

end Roles

theorem ownMisuse_eq_filterMap (kind : MemberKind) (nested : Bool) (t : Tree) :
    t.ownMisuse kind nested = (t.ownLeftovers kind nested).filterMap misuse? := by
  rw [ownMisuse, ownLeftovers]
  cases t.superRole with
  | use use =>
    rw [List.filterMap_append, filterMap_ofMisuse]
    cases nested with
    | true => rw [if_pos rfl, filterMap_silent, List.append_nil]
    | false => exact (List.append_nil _).symm
  | nestedClass => exact (filterMap_silent _).symm
  | _ => rfl

/-- **The reports of an expansion are on `super`s that stay.** -/
theorem misusesIn_eq_filterMap (kind : MemberKind) (nested : Bool) (t : Tree) :
    t.misusesIn kind nested = (t.leftovers kind nested).filterMap misuse? := by
  induction hheight : t.height using Nat.strong_induction_on generalizing t nested with
  | _ height ih =>
    subst hheight
    rw [misusesIn_eq, leftovers_eq, List.filterMap_append, ← ownMisuse_eq_filterMap,
      List.filterMap_flatMap]
    congr 1
    exact List.flatMap_congr fun v hv => ih _ (height_inspected_lt hv) v.1 v.2 rfl

end Tree

open Declass.Tree in
/-- **The `super`s that stay are the leftovers,** in the order of the code. -/
theorem Expands.outerSupers_eq {site : Site} {nested : Bool} {a a' : Account} {ts ts' : List Tree}
    (h : Expands site nested a ts ts' a') :
    ts'.flatMap outerSupers = (ts.flatMap (leftovers site.kind nested)).map Leftover.word := by
  induction h with
  | nil => rfl
  | cons _ _ ihHead ihTail =>
    rw [List.flatMap_singleton, List.flatMap_singleton] at ihHead
    rw [List.flatMap_cons, List.flatMap_cons, List.map_append, ihHead, ihTail]
  | walk role below ih =>
    rw [List.flatMap_singleton, List.flatMap_singleton, leftovers_other role,
      listsSupers_outerSupers.withChildren (.inl role) below.length_eq, ih]
  | enter role below ih =>
    rw [List.flatMap_singleton, List.flatMap_singleton, leftovers_nestedFunction role,
      listsSupers_outerSupers.withChildren (.inr role) below.length_eq, ih]
  | classDecl _ ih | classExpr _ ih =>
    rw [List.flatMap_singleton, List.flatMap_singleton, leftovers_class rfl,
      outerSupers_of_class rfl, List.map_append, Leftover.map_word_silent, ← ih]
    rfl
  | misplaced role =>
    rw [List.flatMap_singleton, List.flatMap_singleton, leftovers_nested_use role,
      listsSupers_outerSupers.use role, List.map_cons, Leftover.map_word_silent]
    rfl
  | bare role =>
    obtain rfl := eq_of_superRole_bare role
    rw [List.flatMap_singleton, List.flatMap_singleton, leftovers_use role,
      listsSupers_outerSupers.use role]
    rfl
  | @stray _ _ t word arguments arguments' role kind _ ih =>
    have hword : word.shape.isSuper = true := by
      obtain ⟨o, s, r⟩ := t
      have huse := Shape.isUse_of_superRole role
      rw [shape_node] at huse
      cases huse with
      | call word => simpa using word
    rw [List.flatMap_singleton, List.flatMap_singleton, leftovers_use role,
      listsSupers_outerSupers.plain rfl rfl, SuperUse.misuse?]
    simp [Shape.children, listsSupers_outerSupers.word hword, ih, kind, SuperUse.operands,
      Leftover.ofMisuse]
  | direct role _ code ih =>
    obtain ⟨pieces, hpieces, hcode⟩ := code.exists_pieces
    rw [List.flatMap_singleton, List.flatMap_singleton, leftovers_use role,
      SuperUse.misuse?_of_isExpanded code.isExpanded, hcode listsSupers_outerSupers.passes,
      listsSupers_outerSupers.pieces hpieces, ih]
    rfl
  | @bound _ a₁ _ _ _ _ key _ _ _ role operands _ _ code ihKey ihRest =>
    have hassign : (assign (temp a₁.fresh) key).outerSupers = key.outerSupers := by
      rw [assign, gen, listsSupers_outerSupers.plain rfl rfl]
      simp [Shape.children, listsSupers_outerSupers.isLeaf (t := temp a₁.fresh) rfl]
    obtain ⟨pieces, hpieces, hcode⟩ := code.exists_pieces
    rw [List.flatMap_singleton, List.flatMap_singleton] at ihKey
    rw [List.flatMap_singleton, List.flatMap_singleton, leftovers_use role, operands,
      SuperUse.misuse?_of_isExpanded code.isExpanded, hcode listsSupers_outerSupers.passes, hassign,
      listsSupers_outerSupers.pieces hpieces, ihRest, ihKey]
    simp

/-! ### Members -/

/-- The `super`s in a member, save those in the members of classes in it. -/
def Tree.supersBelow (t : Tree) : List Tree :=
  t.shape.children.flatMap outerSupers

/-- **The `super`s that an expansion leaves, and its reports.** The expansion of `super` in a
member, for whatever kind of member and for a class that is referred to by a name, succeeds. The
`super`s in the result are the leftovers of the member, and the reports are on those that are not
passed over, both in the order of the code. So there are as many reports as `super`s in the result
iff none is passed over; and then each has its own report, with its range. -/
theorem expandMember_leftovers {s : Store} {site : SuperSite} {id : NodeId} {c : String}
    {r : Option Range} (closed : s.Closed id) (acyclic : s.Acyclic id)
    (named : s.get? site.classRef = some ⟨.identifier c, r⟩) (state : LoweringState) :
    let leftovers := (s.tree s.size id).shape.children.flatMap (Tree.leftovers site.kind false)
    let reports := (leftovers.filterMap Leftover.misuse?).map (Misuse.diagnostic state.journal.bag)
    ∃ member used session,
      (expandMember site id).runOn ⟨s, state⟩ = (.ok (member, used), session) ∧
        session.state.journal.bag.diagnostics.toList =
          state.journal.bag.diagnostics.toList ++ reports ∧
        (session.store.tree s.size member).supersBelow = leftovers.map Leftover.word ∧
        (reports.length = (session.store.tree s.size member).supersBelow.length ↔
          ∀ leftover ∈ leftovers, leftover.message?.isSome) ∧
        ((∀ leftover ∈ leftovers, leftover.message?.isSome) →
          reports.map Diagnostic.range =
            (session.store.tree s.size member).supersBelow.map Tree.range) := by
  intro leftovers reports
  have hg : s.Grounded id := Store.grounded_iff.mpr ⟨closed, acyclic⟩
  obtain ⟨member, used, session, run, cs, hmember, hexpands⟩ :=
    expandMember_spec hg named s.size le_rfl state
  have hsupers : (session.store.tree s.size member).supersBelow = leftovers.map Leftover.word := by
    have hchildren : ((s.tree s.size id).withChildren cs).shape.children = cs :=
      Shape.children_refill hexpands.length_eq
    rw [hmember.tree_eq, Tree.supersBelow, hchildren]
    exact hexpands.outerSupers_eq
  have hbag : session.state.journal.bag =
      state.journal.bag.reportAll (leftovers.filterMap Leftover.misuse?) := by
    rw [List.filterMap_flatMap,
      List.flatMap_congr fun t _ => (Tree.misusesIn_eq_filterMap _ _ t).symm]
    exact hexpands.bag_eq
  refine ⟨member, used, session, run, ?_, hsupers, ?_, ?_⟩
  · rw [hbag, Bag.reportAll, Array.toList_append]
  · rw [hsupers, List.length_map, List.length_map, List.filterMap_length_eq_length]
    simp [Leftover.misuse?]
  · rw [hsupers]
    exact Leftover.map_range_diagnostic _

/-- In a class `C`:

```
m(p = function () { super.a; }) {
  super(super.b); () => super; function () { super.x(super.y); }; class extends super.z {};
}
```
-/
def remindersStore : Store where
  nodes := #[⟨.identifier "C", none⟩, ⟨.superExpr, some (.onLine 0 0 5)⟩, ⟨.member ⟨1⟩ "a", none⟩,
    ⟨.exprStatement ⟨2⟩, none⟩, ⟨.block [⟨3⟩], none⟩, ⟨.functionExpr none [] ⟨4⟩, none⟩,
    ⟨.binding "p", none⟩, ⟨.parameter ⟨6⟩ (some ⟨5⟩) false, none⟩,
    ⟨.superExpr, some (.onLine 1 0 5)⟩, ⟨.superExpr, some (.onLine 1 6 5)⟩,
    ⟨.member ⟨9⟩ "b", none⟩, ⟨.call ⟨8⟩ [⟨10⟩], none⟩, ⟨.exprStatement ⟨11⟩, none⟩,
    ⟨.superExpr, some (.onLine 2 0 5)⟩, ⟨.arrow [] ⟨13⟩, none⟩, ⟨.exprStatement ⟨14⟩, none⟩,
    ⟨.superExpr, some (.onLine 3 0 5)⟩, ⟨.member ⟨16⟩ "x", none⟩,
    ⟨.superExpr, some (.onLine 3 8 5)⟩, ⟨.member ⟨18⟩ "y", none⟩, ⟨.call ⟨17⟩ [⟨19⟩], none⟩,
    ⟨.exprStatement ⟨20⟩, none⟩, ⟨.block [⟨21⟩], none⟩, ⟨.functionExpr none [] ⟨22⟩, none⟩,
    ⟨.exprStatement ⟨23⟩, none⟩, ⟨.superExpr, some (.onLine 4 0 5)⟩, ⟨.member ⟨25⟩ "z", none⟩,
    ⟨.classExpr none (some ⟨26⟩) [], none⟩, ⟨.exprStatement ⟨27⟩, none⟩,
    ⟨.block [⟨12⟩, ⟨15⟩, ⟨24⟩, ⟨28⟩], none⟩, ⟨.method (.identifier "m") [⟨7⟩] ⟨29⟩, none⟩]

/-- Four of the five `super`s that stay are reported; the one in `super.y` is passed over. -/
theorem expandMember_leftovers_reminders : ∃ member used session,
    (expandMember ⟨⟨0⟩, "$runtime", .method⟩ ⟨30⟩).runOn ⟨remindersStore, {}⟩ =
        (.ok (member, used), session) ∧
      session.state.journal.bag.diagnostics.toList.map Diagnostic.range =
        [some (.onLine 0 0 5), some (.onLine 1 0 5), some (.onLine 2 0 5), some (.onLine 3 0 5)] ∧
      (session.store.tree 31 member).supersBelow.map Tree.range =
        [some (.onLine 0 0 5), some (.onLine 1 0 5), some (.onLine 2 0 5), some (.onLine 3 0 5),
          some (.onLine 3 8 5)] := by
  have fits : remindersStore.Fits 31 ⟨30⟩ := by decide +kernel
  obtain ⟨closed, acyclic⟩ := Store.grounded_iff.mp fits.grounded
  obtain ⟨member, used, session, run, hreports, hsupers, -, -⟩ :=
    @expandMember_leftovers remindersStore ⟨⟨0⟩, "$runtime", .method⟩ ⟨30⟩ "C" none closed acyclic
      rfl {}
  change (session.store.tree 31 member).supersBelow = _ at hsupers
  refine ⟨member, used, session, run, ?_, ?_⟩
  · rw [hreports]
    decide +kernel
  · rw [hsupers]
    decide +kernel

/-- `m() { function () { super.x(super.y); }; }`, in a class `C`. -/
def unheardStore : Store where
  nodes := #[⟨.identifier "C", none⟩, ⟨.superExpr, some (.onLine 0 0 5)⟩, ⟨.member ⟨1⟩ "x", none⟩,
    ⟨.superExpr, some (.onLine 0 8 5)⟩, ⟨.member ⟨3⟩ "y", none⟩, ⟨.call ⟨2⟩ [⟨4⟩], none⟩,
    ⟨.exprStatement ⟨5⟩, none⟩, ⟨.block [⟨6⟩], none⟩, ⟨.functionExpr none [] ⟨7⟩, none⟩,
    ⟨.exprStatement ⟨8⟩, none⟩, ⟨.block [⟨9⟩], none⟩, ⟨.method (.identifier "m") [] ⟨10⟩, none⟩]

/-- The member stays as it is, with two `super`s and one report. -/
theorem expandMember_passes_over :
    let run := (expandMember ⟨⟨0⟩, "$runtime", .method⟩ ⟨11⟩).runOn ⟨unheardStore, {}⟩
    unheardStore.Fits 12 ⟨11⟩ ∧ run.1.toOption = some (⟨11⟩, false) ∧
      run.2.state.journal.bag.diagnostics.toList.map Diagnostic.range = [some (.onLine 0 0 5)] ∧
      (run.2.store.tree 12 ⟨11⟩).supersBelow.map Tree.range =
        [some (.onLine 0 0 5), some (.onLine 0 8 5)] := by
  decide +kernel

end Declass
