import Mathlib.Data.List.Flatten
import Mathlib.Data.List.Perm.Subperm
import Declass.Proofs.Generated
import Declass.Proofs.Scaffold
import Declass.Proofs.SuperUses

/-!
# Uses of `super` that are reported

A `super` that cannot be expanded is reported and stays. Who is in charge of a `super` changes with
its place: of a class in a member, the heritage is looked at when the member around it is expanded,
and the members are when the class is lowered, which is later and happens in a run of its own. This
module lists the reports of a whole run, and shows that there is no gap and no overlap between the
parts that the runs look at. Each report is on a `super` of its own, and if there is none, then no
`super` stays, save those that are in no member.

## Main definitions

* `Misuse` — a use of `super` that is reported
* `Tree.misusesIn`, `Tree.misuses` — the reports of an expansion and of a lowering
* `Tree.supers` — all `super`s of a tree
* `Tree.looseSupers`, `Tree.memberSupers` — those outside and those inside the members of classes
* `Tree.ListsSupers` — the listings that go through all constructs but classes

## Main results

* `Expands.bag_eq`, `Lowers.bag_eq` — what is reported
* `Tree.misuses_subperm` — each report is on a `super` of its own
* `Expands.looseSupers_eq_nil`, `Lowers.superless` — without reports no `super` stays
* `lowerProgram_supers` — the `super`s of a program
-/

namespace Declass

open Edit Lowering

/-! ### Reports -/

/-- A use of `super` that is reported. -/
structure Misuse where
  /-- The word `super`. -/
  word : Tree
  message : Message

namespace Misuse

/-- The diagnostic that is reported. -/
def diagnostic (bag : Bag) (misuse : Misuse) : Diagnostic :=
  bag.diagnostic misuse.word.range misuse.message []

end Misuse

namespace Bag

/-- Report uses of `super`, one after the other. -/
def reportAll (bag : Bag) (misuses : List Misuse) : Bag :=
  { bag with diagnostics := bag.diagnostics ++ (misuses.map (Misuse.diagnostic bag)).toArray }

@[simp] theorem reportAll_nil (bag : Bag) : bag.reportAll [] = bag := by
  simp [reportAll]

theorem reportAll_append (bag : Bag) (ms ns : List Misuse) :
    bag.reportAll (ms ++ ns) = (bag.reportAll ms).reportAll ns := by
  rw [reportAll, reportAll, List.map_append, ← List.append_toArray, ← Array.append_assoc]
  rfl

theorem report_eq_reportAll (bag : Bag) (word : Tree) (message : Message) :
    bag.report word.range message [] = bag.reportAll [⟨word, message⟩] := by
  simp [report, add, reportAll, Misuse.diagnostic]

end Bag

/-- The report on a use of `super` in a member of a given kind, if there is one. The Boolean says
whether a function other than an arrow lies between the member and the use. -/
def SuperUse.misuse? (kind : MemberKind) (nested : Bool) (use : SuperUse Tree) : Option Misuse :=
  if nested then some ⟨use.word, .superOutsideMember⟩
  else
    match use with
    | .bare word => some ⟨word, .bareSuper⟩
    | .call word _ =>
      if kind = .constructor then none else some ⟨word, .superCallOutsideConstructor⟩
    | _ => none

/-- A report is on the word of the use, and says one of three things. -/
theorem SuperUse.of_mem_misuse? {kind : MemberKind} {nested : Bool} {use : SuperUse Tree}
    {misuse : Misuse} (h : misuse ∈ use.misuse? kind nested) :
    misuse.word = use.word ∧ misuse.message ∈
      [Message.superOutsideMember, .bareSuper, .superCallOutsideConstructor] := by
  unfold misuse? at h
  split at h
  case isTrue =>
    cases h
    exact ⟨rfl, List.mem_cons_self⟩
  case isFalse =>
    split at h
    case h_1 =>
      cases h
      exact ⟨rfl, by simp⟩
    case h_2 =>
      split at h <;> cases h
      exact ⟨rfl, by simp⟩
    case h_3 => cases h

/-- What is expanded is no misuse. -/
theorem SuperUse.misuse?_of_isExpanded {kind : MemberKind} {use : SuperUse Tree}
    (h : use.isExpanded kind = true) : use.misuse? kind false = none := by
  cases use <;> simp_all [misuse?, isExpanded]

namespace Tree

theorem eq_of_superRole_bare {t word : Tree} (role : t.superRole = .use (.bare word)) :
    word = t := by
  obtain ⟨o, s, r⟩ := t
  have huse := Shape.isUse_of_superRole role
  rw [shape_node] at huse
  cases huse
  rfl

/-- The parts of a tree in which uses of `super` are looked for by an expansion, each with whether a
function other than an arrow lies around it. -/
def inspected (nested : Bool) (t : Tree) : List (Bool × Tree) :=
  match t.superRole with
  | .use use => if nested then [] else use.operands.map (false, ·)
  | .nestedFunction => t.shape.children.map (true, ·)
  | .nestedClass =>
    t.shape.classParts?.toList.flatMap fun parts => parts.heritage.toList.map (nested, ·)
  | .other => t.shape.children.map (nested, ·)

/-- What is inspected is lower than the tree. -/
theorem height_inspected_lt {nested : Bool} {t : Tree} {v : Bool × Tree}
    (h : v ∈ t.inspected nested) : v.2.height < t.height := by
  rw [inspected] at h
  split at h
  case h_1 use role =>
    split at h
    · cases h
    · obtain ⟨c, hc, rfl⟩ := List.mem_map.mp h
      exact height_operand_lt role hc
  case h_3 =>
    obtain ⟨o, s, r⟩ := t
    obtain ⟨parts, hparts, h⟩ := List.mem_flatMap.mp h
    obtain ⟨c, hc, rfl⟩ := List.mem_map.mp h
    exact height_lt_of_mem_children
      (Shape.mem_children_of_mem_heritage (Option.mem_toList.mp hparts) (Option.mem_toList.mp hc))
  all_goals
    obtain ⟨o, s, r⟩ := t
    obtain ⟨c, hc, rfl⟩ := List.mem_map.mp h
    exact height_lt_of_mem_children hc

/-- The report on a tree that is a use of `super`. -/
def ownMisuse (kind : MemberKind) (nested : Bool) (t : Tree) : List Misuse :=
  match t.superRole with
  | .use use => (use.misuse? kind nested).toList
  | _ => []

/-- The reports of the expansion of a tree in a member of a given kind. -/
def misusesIn (kind : MemberKind) (nested : Bool) (t : Tree) : List Misuse :=
  t.ownMisuse kind nested ++ (t.inspected nested).attach.flatMap fun v => misusesIn kind v.1.1 v.1.2
termination_by t.height
decreasing_by exact height_inspected_lt v.2

theorem misusesIn_eq (kind : MemberKind) (nested : Bool) (t : Tree) :
    t.misusesIn kind nested =
      t.ownMisuse kind nested ++ (t.inspected nested).flatMap fun v => v.2.misusesIn kind v.1 := by
  have hattach : ((t.inspected nested).attach.flatMap fun v => v.1.2.misusesIn kind v.1.1) =
      (t.inspected nested).attach.unattach.flatMap fun v => v.2.misusesIn kind v.1 :=
    List.flatMap_subtype fun _ _ => rfl
  rw [misusesIn, hattach, List.unattach_attach]

/-- The reports of the expansion of a member. -/
def memberMisuses (t : Tree) : List Misuse :=
  match MemberKind.ofShape? t.shape with
  | some kind => t.shape.children.flatMap (misusesIn kind false)
  | none => []

/-- The reports of the lowering of a tree. The heritage of a class is lowered first. Each member is
expanded, and then lowered. -/
def misuses : Tree → List Misuse :=
  gather (fun _ _ => []) fun parts =>
    parts.heritage.toList.flatMap Prod.snd ++
      parts.members.flatMap fun member => member.1.memberMisuses ++ member.2

section Roles

variable {kind : MemberKind} {nested : Bool} {t : Tree}

theorem misusesIn_nested_use {use : SuperUse Tree} (role : t.superRole = .use use) :
    t.misusesIn kind true = [⟨use.word, .superOutsideMember⟩] := by
  rw [misusesIn_eq, ownMisuse, inspected, role]
  rfl

theorem misusesIn_use {use : SuperUse Tree} (role : t.superRole = .use use) :
    t.misusesIn kind false =
      (use.misuse? kind false).toList ++ use.operands.flatMap (misusesIn kind false) := by
  rw [misusesIn_eq, ownMisuse, inspected, role]
  simp [List.flatMap_map]

theorem misusesIn_nestedFunction (role : t.superRole = .nestedFunction) :
    t.misusesIn kind nested = t.shape.children.flatMap (misusesIn kind true) := by
  rw [misusesIn_eq, ownMisuse, inspected, role]
  simp [List.flatMap_map]

theorem misusesIn_other (role : t.superRole = .other) :
    t.misusesIn kind nested = t.shape.children.flatMap (misusesIn kind nested) := by
  rw [misusesIn_eq, ownMisuse, inspected, role]
  simp [List.flatMap_map]

theorem misusesIn_class {parts : ClassParts Tree} (h : t.shape.classParts? = some parts) :
    t.misusesIn kind nested = parts.heritage.toList.flatMap (misusesIn kind nested) := by
  have hclass : t.shape.isClass = true := by
    generalize t.shape = s at h
    cases s <;> first | rfl | cases h
  have role : t.superRole = .nestedClass := Shape.superRole_of_isClass hclass
  rw [misusesIn_eq, ownMisuse, inspected, role, h]
  simp [List.flatMap_map]

end Roles

/-- What is no class has the misuses of its parts. -/
theorem misuses_of_not_isClass {t : Tree} (h : t.shape.isClass = false) :
    t.misuses = t.shape.children.flatMap misuses := by
  rw [misuses, gather_of_not_isClass h, List.nil_append]

/-- Misuses are in the members of a class and in its heritage. -/
theorem misuses_of_class {t : Tree} {parts : ClassParts Tree}
    (h : t.shape.classParts? = some parts) :
    t.misuses = parts.heritage.toList.flatMap misuses ++
      parts.members.flatMap fun m => m.memberMisuses ++ m.misuses := by
  obtain ⟨o, s, r⟩ := t
  rw [shape_node] at h
  rw [misuses, gather_node, h]
  cases hheritage : parts.heritage <;> simp [ClassParts.map, hheritage, List.flatMap_map]

/-- The reports of the lowering of code, or of a member of a class. -/
def misusesAs : Option String → Tree → List Misuse
  | none, t => t.misuses
  | some _, t => t.memberMisuses ++ t.misuses

/-- The constructor that a class is given is in order. -/
theorem memberMisuses_defaultConstructor (hasBase : Bool) :
    (defaultConstructor hasBase).memberMisuses = [] := by
  have hleaf {t : Tree} (h : t.shape.isLeaf = true) : t.misusesIn .constructor false = [] := by
    rw [misusesIn_other (Shape.superRole_of_isLeaf h), Shape.children_eq_nil_of_isLeaf h,
      List.flatMap_nil]
  have hother {t : Tree} (role : t.superRole = .other)
      (h : ∀ c ∈ t.shape.children, c.misusesIn .constructor false = []) :
      t.misusesIn .constructor false = [] := by
    rw [misusesIn_other role]
    exact List.flatMap_eq_nil_iff.mpr h
  have hkind : MemberKind.ofShape? (defaultConstructor hasBase).shape = some .constructor := by
    cases hasBase <;> rfl
  rw [memberMisuses, hkind]
  refine List.flatMap_eq_nil_iff.mpr ?_
  cases hasBase with
  | false => exact List.forall_mem_singleton.mpr (hother rfl nofun)
  | true =>
    refine List.forall_mem_cons.mpr ⟨?_, List.forall_mem_singleton.mpr (hother rfl ?_)⟩
    · exact hother rfl (List.forall_mem_singleton.mpr (hleaf rfl))
    · refine List.forall_mem_singleton.mpr (hother rfl (List.forall_mem_singleton.mpr ?_))
      rw [misusesIn_use rfl]
      refine List.flatMap_eq_nil_iff.mpr (List.forall_mem_singleton.mpr (hother rfl ?_))
      exact List.forall_mem_singleton.mpr (hleaf rfl)

theorem misusesAs_withConstructor (c : String) (members : List Tree) (hasBase : Bool) :
    (withConstructor members hasBase).flatMap (misusesAs (some c)) =
      members.flatMap fun m => m.memberMisuses ++ m.misuses := by
  have hlowered : (defaultConstructor hasBase).misuses = [] :=
    (synthetic_defaultConstructor hasBase).gather_eq_nil fun _ => rfl
  rw [withConstructor]
  split
  · rfl
  · rw [List.flatMap_append, List.flatMap_singleton, misusesAs, hlowered,
      memberMisuses_defaultConstructor, List.append_nil, List.append_nil]
    rfl

end Tree

open Declass.Tree in
/-- **The reports of an expansion.** -/
theorem Expands.bag_eq {site : Site} {nested : Bool} {a a' : Account} {ts ts' : List Tree}
    (h : Expands site nested a ts ts' a') :
    a'.bag = a.bag.reportAll (ts.flatMap (misusesIn site.kind nested)) := by
  induction h with
  | nil => simp
  | cons _ _ ihHead ihTail =>
    rw [ihTail, ihHead, ← Bag.reportAll_append, List.flatMap_singleton, ← List.flatMap_cons]
  | walk role _ ih => rwa [List.flatMap_singleton, misusesIn_other role]
  | enter role _ ih => rwa [List.flatMap_singleton, misusesIn_nestedFunction role]
  | classDecl _ ih | classExpr _ ih => rwa [List.flatMap_singleton, misusesIn_class rfl]
  | misplaced role =>
    rw [List.flatMap_singleton, misusesIn_nested_use role, ← Bag.report_eq_reportAll]
    rfl
  | bare role =>
    obtain rfl := eq_of_superRole_bare role
    rw [List.flatMap_singleton, misusesIn_use role]
    exact Bag.report_eq_reportAll _ _ _
  | stray role kind _ ih =>
    rw [List.flatMap_singleton, misusesIn_use role, ih, Bag.reportAll_append, SuperUse.misuse?]
    simp only [Bool.false_eq_true, if_false, if_neg kind]
    rw [Option.toList_some, ← Bag.report_eq_reportAll]
    rfl
  | direct role _ code ih =>
    rwa [List.flatMap_singleton, misusesIn_use role, SuperUse.misuse?_of_isExpanded code.isExpanded]
  | @bound _ a₁ _ _ _ _ _ _ _ _ role operands _ _ code ihKey ihRest =>
    rw [List.flatMap_singleton, misusesIn_use role, operands, List.flatMap_cons,
      SuperUse.misuse?_of_isExpanded code.isExpanded, Option.toList_none, List.nil_append,
      Bag.reportAll_append, ← List.flatMap_singleton (misusesIn site.kind false), ← ihKey]
    exact ihRest

theorem Expands.misuses_eq {site : Site} {nested : Bool} {a a' : Account} {ts ts' : List Tree}
    (h : Expands site nested a ts ts' a') :
    ts'.flatMap Tree.misuses = ts.flatMap Tree.misuses := by
  refine flatMap_eq_of_forall₂ (h.gather_eq (fun _ _ _ => rfl) (fun _ => rfl) (fun _ _ _ => rfl) ?_)
  intro name h h' ms hh
  cases h <;> cases h' <;> simp_all

open Declass.Tree in
/-- **The reports of a lowering.** -/
theorem Lowers.bag_eq {options : Options} {c : Option String} {a a' : Account}
    {ts ts' : List Tree} (h : Lowers options c a ts ts' a') :
    a'.bag = a.bag.reportAll (ts.flatMap (misusesAs c)) := by
  induction h with
  | nil => simp
  | cons _ _ ihHead ihTail =>
    rw [ihTail, ihHead, ← Bag.reportAll_append, List.flatMap_singleton, ← List.flatMap_cons]
  | walk plain _ _ ih => rwa [List.flatMap_singleton, misusesAs, misuses_of_not_isClass plain]
  | scope owner _ ih =>
    rwa [List.flatMap_singleton, misusesAs, misuses_of_not_isClass (isClass_of_ownsTemps owner)]
  | classDecl _ _ _ ihAbove ihBelow | classExprBound _ _ _ ihAbove ihBelow
  | classExprFree _ _ _ ihAbove ihBelow =>
    rw [misusesAs_withConstructor] at ihBelow
    rw [List.flatMap_singleton, misusesAs, misuses_of_class rfl, Bag.reportAll_append]
    exact ihBelow.trans (congrArg (Bag.reportAll · _) ihAbove)
  | member legal expanded _ ih =>
    have plain := isClass_of_ownsTemps (ownsTemps_of_ofShape? legal)
    rw [List.flatMap_singleton, misusesAs, memberMisuses, legal, misuses_of_not_isClass plain,
      Bag.reportAll_append, ← expanded.misuses_eq]
    exact ih.trans (congrArg (Bag.reportAll · _) expanded.bag_eq)

/-! ### The places of `super` -/

theorem Shape.isSuper_refill {α β : Type} [Inhabited β] (s : Shape α) (bs : List β) :
    (s.refill bs).isSuper = s.isSuper := by
  cases s with
  | classDecl _ option _ | functionExpr option _ _ => cases option <;> rfl
  | _ => rfl

namespace Tree

/-- All `super`s of a tree, from left to right. -/
def supers : Tree → List Tree :=
  violations fun t => t.shape.isSuper = false

/-- The tree, if it is the word `super`. -/
def ownSuper (t : Tree) : List Tree :=
  if t.shape.isSuper then [t] else []

/-- The `super`s of a tree that are not in a member of a class. -/
def looseSupers : Tree → List Tree :=
  para fun origin shape range => match shape.classParts? with
    | some parts => parts.heritage.toList.flatMap Prod.snd
    | none => ownSuper (.node origin (shape.map Prod.fst) range) ++ shape.children.flatMap Prod.snd

/-- The `super`s of a tree that are in a member of a class. -/
def memberSupers : Tree → List Tree :=
  gather (fun _ _ => []) fun parts =>
    parts.heritage.toList.flatMap Prod.snd ++ parts.members.flatMap fun member => member.1.supers

theorem supers_eq (t : Tree) : t.supers = t.ownSuper ++ t.shape.children.flatMap supers := by
  rw [supers, violations_of, ← supers, ownSuper]
  cases t.shape.isSuper <;> rfl

theorem looseSupers_of_not_isClass {t : Tree} (h : t.shape.isClass = false) :
    t.looseSupers = t.ownSuper ++ t.shape.children.flatMap looseSupers := by
  obtain ⟨o, s, r⟩ := t
  rw [shape_node] at h
  have hself : (s.map fun c => (c, looseSupers c)).map Prod.fst = s := by
    rw [Shape.map_map]
    exact Shape.map_id s
  rw [looseSupers, para_node, ← looseSupers, Shape.classParts?_map,
    Shape.classParts?_eq_none h, hself,
    Shape.children_map]
  simp [List.flatMap_map]

theorem looseSupers_of_class {t : Tree} {parts : ClassParts Tree}
    (h : t.shape.classParts? = some parts) :
    t.looseSupers = parts.heritage.toList.flatMap looseSupers := by
  obtain ⟨o, s, r⟩ := t
  rw [shape_node] at h
  rw [looseSupers, para_node, ← looseSupers, Shape.classParts?_map, h]
  cases hheritage : parts.heritage <;> simp [ClassParts.map, hheritage]

theorem memberSupers_of_not_isClass {t : Tree} (h : t.shape.isClass = false) :
    t.memberSupers = t.shape.children.flatMap memberSupers := by
  rw [memberSupers, gather_of_not_isClass h, List.nil_append]

theorem memberSupers_of_class {t : Tree} {parts : ClassParts Tree}
    (h : t.shape.classParts? = some parts) :
    t.memberSupers = parts.heritage.toList.flatMap memberSupers ++
      parts.members.flatMap supers := by
  obtain ⟨o, s, r⟩ := t
  rw [shape_node] at h
  rw [memberSupers, gather_node, h]
  cases hheritage : parts.heritage <;> simp [ClassParts.map, hheritage, List.flatMap_map]

theorem ownSuper_eq_nil {t : Tree} (h : t.shape.isSuper = false) : t.ownSuper = [] := by
  simp [ownSuper, h]

/-- A construct that is neither a class nor a `super`. -/
theorem looseSupers_of_plain {t : Tree} (plain : t.shape.isClass = false)
    (h : t.shape.isSuper = false) : t.looseSupers = t.shape.children.flatMap looseSupers := by
  rw [looseSupers_of_not_isClass plain, ownSuper_eq_nil h, List.nil_append]

theorem looseSupers_of_isSuper {t : Tree} (h : t.shape.isSuper = true) : t.looseSupers = [t] := by
  have hshape := shape_eq_superExpr h
  rw [looseSupers_of_not_isClass (by rw [hshape]; rfl), ownSuper, if_pos h, hshape]
  rfl

theorem isSuper_of_superRole {t : Tree} (role : ∀ use, t.superRole ≠ .use use) :
    t.shape.isSuper = false := by
  by_contra h
  refine role (.bare t) ?_
  rw [superRole, shape_eq_superExpr (by simpa using h)]
  rfl

/-- A listing of `super`s that goes through all constructs but classes. -/
structure ListsSupers (φ : Tree → List Tree) : Prop where
  word : ∀ {t : Tree}, t.shape.isSuper = true → φ t = [t]
  plain : ∀ {t : Tree}, t.shape.isClass = false → t.shape.isSuper = false →
    φ t = t.shape.children.flatMap φ

namespace ListsSupers

variable {φ : Tree → List Tree} (h : ListsSupers φ) {t : Tree}

include h

theorem superAccess? {access : SuperAccess Tree}
    (target : t.shape.superAccess? (fun c => some c.shape) = some access) :
    φ t = access.word :: access.key.operands.flatMap φ := by
  obtain ⟨o, s, r⟩ := t
  cases s <;> simp only [shape_node, Shape.superAccess?] at target <;> try cases target
  all_goals
    split at target <;> cases target
    have hword := h.word (by simpa using ‹_›)
    rw [h.plain rfl rfl]
    simp [Shape.children, MemberKey.operands, hword]

/-- The `super`s of a use are its own and those of its operands. -/
theorem use {use : SuperUse Tree} (role : t.superRole = .use use) :
    φ t = use.word :: use.operands.flatMap φ := by
  obtain ⟨o, s, r⟩ := t
  have huse := Shape.isUse_of_superRole role
  rw [shape_node] at huse
  cases huse with
  | call word =>
    rw [h.plain rfl rfl]
    simp [Shape.children, SuperUse.word, SuperUse.operands, h.word (by simpa using word)]
  | methodCall target | assign target | compound target | update target =>
    rw [h.plain rfl rfl]
    simp [Shape.children, SuperUse.word, SuperUse.operands,
      h.superAccess? (by simpa using target)]
  | get target => exact h.superAccess? target
  | bare => exact h.word rfl

/-- The `super`s of a construct that matters only for what it contains. -/
theorem withChildren {cs : List Tree}
    (role : t.superRole = .other ∨ t.superRole = .nestedFunction)
    (hlength : cs.length = t.shape.children.length) : φ (t.withChildren cs) = cs.flatMap φ := by
  have plain : t.shape.isClass = false :=
    isClass_of_superRole_ne (by rcases role with h | h <;> simp [h])
  have super := isSuper_of_superRole (t := t) (by rcases role with h | h <;> simp [h])
  rw [h.plain, Tree.withChildren, shape_node, Shape.children_refill hlength]
  · rwa [Tree.withChildren, shape_node, Shape.isClass_refill]
  · rwa [Tree.withChildren, shape_node, Shape.isSuper_refill]

theorem passes : Passes φ where
  joint t ht := by
    rw [isJoint] at ht
    refine h.plain ?_ ?_
    all_goals
      generalize t.shape = s at ht
      cases s <;> first | rfl | cases ht

theorem isLeaf (leaf : t.shape.isLeaf = true) : φ t = [] := by
  have hsuper : t.shape.isSuper = false := by
    generalize t.shape = s at leaf
    cases s <;> first | rfl | cases leaf
  rw [h.plain (Shape.isClass_of_isLeaf leaf) hsuper, Shape.children_eq_nil_of_isLeaf leaf,
    List.flatMap_nil]

theorem pieces {names : String → Prop} {pieces : List Tree}
    (hpieces : ∀ leaf ∈ pieces, leaf.IsPiece names) : pieces.flatMap φ = [] :=
  List.flatMap_eq_nil_iff.mpr fun leaf hleaf => h.isLeaf (hpieces leaf hleaf).isLeaf

end ListsSupers

theorem listsSupers_looseSupers : ListsSupers looseSupers :=
  ⟨looseSupers_of_isSuper, looseSupers_of_plain⟩

/-! ### Each report is on a `super` of its own -/

theorem subperm_flatMap {α β : Type} {as : List α} {f g : α → List β}
    (h : ∀ a ∈ as, (f a).Subperm (g a)) : (as.flatMap f).Subperm (as.flatMap g) := by
  induction as with
  | nil => exact List.nil_subperm
  | cons a as ih =>
    obtain ⟨head, tail⟩ := List.forall_mem_cons.mp h
    rw [List.flatMap_cons, List.flatMap_cons]
    exact head.append (ih tail)

/-- No `super` is both outside and inside of members. -/
theorem looseSupers_append_memberSupers (t : Tree) :
    (t.looseSupers ++ t.memberSupers).Subperm t.supers := by
  induction t with
  | node o s r ih =>
    -- In each child the two parts are apart, so they are in all children together.
    have hparts {ts : List Tree} (h : ∀ c ∈ ts, c ∈ s.children) :
        (ts.flatMap looseSupers ++ ts.flatMap memberSupers).Subperm (ts.flatMap supers) :=
      (List.flatMap_append_perm ts _ _).subperm.trans (subperm_flatMap fun c hc => ih c (h c hc))
    rw [supers_eq, shape_node]
    cases hparts? : s.classParts? with
    | none =>
      have plain : s.isClass = false := by cases s <;> first | rfl | cases hparts?
      rw [looseSupers_of_not_isClass (t := .node o s r) plain,
        memberSupers_of_not_isClass (t := .node o s r) plain, List.append_assoc]
      exact (List.Subperm.refl _).append (hparts fun _ => id)
    | some parts =>
      have hown : (Tree.node o s r).ownSuper = [] := by
        refine ownSuper_eq_nil ?_
        cases s <;> first | rfl | cases hparts?
      have hchildren := Shape.sublist_children_of_classParts? hparts?
      have hheritage := hparts fun c hc => hchildren.subset (List.mem_append_left _ hc)
      rw [looseSupers_of_class (t := .node o s r) hparts?,
        memberSupers_of_class (t := .node o s r) hparts?, hown, List.nil_append,
        ← List.append_assoc]
      refine (hheritage.append (.refl _)).trans ?_
      rw [← List.flatMap_append]
      exact (hchildren.flatMap supers).subperm

/-- The reports of an expansion are on `super`s that are in no member of a further class. -/
theorem misusesIn_subperm (kind : MemberKind) (nested : Bool) (t : Tree) :
    ((t.misusesIn kind nested).map Misuse.word).Subperm t.looseSupers := by
  induction hheight : t.height using Nat.strong_induction_on generalizing t nested with
  | _ height ih =>
    subst hheight
    have hbelow {nested : Bool} {ts : List Tree} (h : ∀ c ∈ ts, c.height < t.height) :
        ((ts.flatMap (misusesIn kind nested)).map Misuse.word).Subperm
          (ts.flatMap looseSupers) := by
      rw [List.map_flatMap]
      exact subperm_flatMap fun c hc => ih _ (h c hc) nested c rfl
    have hchildren : ∀ c ∈ t.shape.children, c.height < t.height := by
      obtain ⟨o, s, r⟩ := t
      exact fun c hc => height_lt_of_mem_children hc
    cases role : t.superRole with
    | use use =>
      rw [listsSupers_looseSupers.use role]
      cases nested with
      | true =>
        rw [misusesIn_nested_use role]
        exact (List.Sublist.cons_cons _ (List.nil_sublist _)).subperm
      | false =>
        have hown : ((use.misuse? kind false).toList.map Misuse.word).Subperm [use.word] := by
          cases hmisuse : use.misuse? kind false with
          | none => exact List.nil_subperm
          | some misuse => simp [(SuperUse.of_mem_misuse? hmisuse).1]
        rw [misusesIn_use role, List.map_append]
        exact hown.append (hbelow fun c hc => height_operand_lt role hc)
    | nestedFunction =>
      have plain : t.shape.isClass = false := isClass_of_superRole_ne (by simp [role])
      rw [misusesIn_nestedFunction role,
        looseSupers_of_plain plain (isSuper_of_superRole (by simp [role]))]
      exact hbelow hchildren
    | nestedClass =>
      obtain ⟨parts, hparts⟩ : ∃ parts, t.shape.classParts? = some parts := by
        have hclass := Shape.isClass_of_superRole role
        generalize t.shape = s at hclass
        cases s <;> first | exact ⟨_, rfl⟩ | cases hclass
      rw [misusesIn_class hparts, looseSupers_of_class hparts]
      exact hbelow fun c hc =>
        hchildren c (Shape.mem_children_of_mem_heritage hparts (Option.mem_toList.mp hc))
    | other =>
      have plain : t.shape.isClass = false := isClass_of_superRole_ne (by simp [role])
      rw [misusesIn_other role, looseSupers_of_plain plain (isSuper_of_superRole (by simp [role]))]
      exact hbelow hchildren

theorem memberMisuses_subperm (t : Tree) :
    (t.memberMisuses.map Misuse.word).Subperm t.looseSupers := by
  rw [memberMisuses]
  cases legal : MemberKind.ofShape? t.shape with
  | none => exact List.nil_subperm
  | some kind =>
    have hsuper : t.shape.isSuper = false := by
      generalize t.shape = s at legal
      cases s <;> first | rfl | cases legal
    rw [looseSupers_of_plain (isClass_of_ownsTemps (ownsTemps_of_ofShape? legal)) hsuper,
      List.map_flatMap]
    exact subperm_flatMap fun c _ => misusesIn_subperm kind false c

/-- **Each report is on a `super` of its own.** -/
theorem misuses_subperm (t : Tree) : (t.misuses.map Misuse.word).Subperm t.memberSupers := by
  induction t with
  | node o s r ih =>
    have hparts {ts : List Tree} (h : ∀ c ∈ ts, c ∈ s.children) :
        ((ts.flatMap misuses).map Misuse.word).Subperm (ts.flatMap memberSupers) := by
      rw [List.map_flatMap]
      exact subperm_flatMap fun c hc => ih c (h c hc)
    cases hparts? : s.classParts? with
    | none =>
      have plain : s.isClass = false := by cases s <;> first | rfl | cases hparts?
      rw [misuses_of_not_isClass (t := .node o s r) plain,
        memberSupers_of_not_isClass (t := .node o s r) plain]
      exact hparts fun _ => id
    | some parts =>
      rw [misuses_of_class (t := .node o s r) hparts?,
        memberSupers_of_class (t := .node o s r) hparts?,
        List.map_append]
      refine List.Subperm.append (hparts fun c hc => ?_) ?_
      · exact Shape.mem_children_of_mem_heritage hparts? (Option.mem_toList.mp hc)
      · rw [List.map_flatMap]
        refine subperm_flatMap fun m hm => ?_
        rw [List.map_append]
        refine ((memberMisuses_subperm m).append (ih m ?_)).trans
          (looseSupers_append_memberSupers m)
        exact (Shape.sublist_children_of_classParts? hparts?).subset (List.mem_append_right _ hm)

end Tree

/-! ### Without reports no `super` stays -/

open Declass.Tree in
/-- **An expansion that reports nothing leaves no `super`,** save in the members of further
classes. -/
theorem Expands.looseSupers_eq_nil {site : Site} {nested : Bool} {a a' : Account}
    {ts ts' : List Tree} (h : Expands site nested a ts ts' a')
    (hts : ts.flatMap (misusesIn site.kind nested) = []) : ts'.flatMap looseSupers = [] := by
  induction h with
  | nil => rfl
  | cons _ _ ihHead ihTail =>
    rw [List.flatMap_cons, List.append_eq_nil_iff] at hts
    have hhead := ihHead (by rw [List.flatMap_singleton, hts.1])
    rw [List.flatMap_cons, ihTail hts.2, List.append_nil]
    simpa using hhead
  | walk role below ih =>
    rw [List.flatMap_singleton, misusesIn_other role] at hts
    rw [List.flatMap_singleton, listsSupers_looseSupers.withChildren (.inl role) below.length_eq]
    exact ih hts
  | enter role below ih =>
    rw [List.flatMap_singleton, misusesIn_nestedFunction role] at hts
    rw [List.flatMap_singleton, listsSupers_looseSupers.withChildren (.inr role) below.length_eq]
    exact ih hts
  | classDecl _ ih | classExpr _ ih =>
    rw [List.flatMap_singleton, misusesIn_class rfl] at hts
    rw [List.flatMap_singleton, looseSupers_of_class rfl]
    exact ih hts
  | misplaced role =>
    rw [List.flatMap_singleton, misusesIn_nested_use role] at hts
    cases hts
  | bare role =>
    rw [List.flatMap_singleton, misusesIn_use role] at hts
    cases hts
  | stray role kind =>
    rw [List.flatMap_singleton, misusesIn_use role] at hts
    simp [SuperUse.misuse?, kind] at hts
  | direct role _ code ih =>
    rw [List.flatMap_singleton, misusesIn_use role, List.append_eq_nil_iff] at hts
    obtain ⟨pieces, hpieces, hcode⟩ := code.exists_pieces
    rw [List.flatMap_singleton, hcode listsSupers_looseSupers.passes,
      listsSupers_looseSupers.pieces hpieces, ih hts.2]
    rfl
  | @bound _ a₁ _ _ _ _ key _ _ _ role operands _ _ code ihKey ihRest =>
    rw [List.flatMap_singleton, misusesIn_use role, operands, List.flatMap_cons,
      List.append_eq_nil_iff, List.append_eq_nil_iff] at hts
    have hkey : key.looseSupers = [] := by
      simpa using ihKey (by rw [List.flatMap_singleton, hts.2.1])
    have hassign : (assign (temp a₁.fresh) key).looseSupers = [] := by
      rw [assign, gen, looseSupers_of_plain rfl rfl]
      simp [Shape.children, hkey, listsSupers_looseSupers.isLeaf (t := temp a₁.fresh) rfl]
    obtain ⟨pieces, hpieces, hcode⟩ := code.exists_pieces
    rw [List.flatMap_singleton, hcode listsSupers_looseSupers.passes, hassign,
      listsSupers_looseSupers.pieces hpieces, ihRest hts.2.2]
    rfl

namespace Tree

/-- No part of the tree is a `super`. -/
def Superless : Tree → Prop :=
  Everywhere fun t => t.shape.isSuper = false

theorem lenient_isSuper : Lenient (fun _ => True) fun t => t.shape.isSuper = false where
  neutral t h := by
    generalize t.shape = s at h
    cases s <;> first | rfl | cases h
  assign _ _ := rfl
  declarator _ _ _ _ _ := rfl
  varStatement _ _ _ _ _ := rfl
  program _ _ _ := rfl
  body _ s _ _ h := by
    rw [← h]
    cases s <;> rfl
  expression _ _ _ _ _ _ _ := rfl

theorem superless_withChildren {t : Tree} {cs : List Tree} (h : t.shape.isSuper = false)
    (hlength : cs.length = t.shape.children.length) (below : ∀ c ∈ cs, c.Superless) :
    (t.withChildren cs).Superless := by
  refine .node ?_ ?_
  · rwa [shape_node, Shape.isSuper_refill]
  · rwa [Shape.children_refill hlength]

theorem isSuper_of_ownsTemps {α : Type} {s : Shape α} (h : s.ownsTemps = true) :
    s.isSuper = false := by
  cases s <;> first | rfl | cases h

/-- The `super`s that a lowering would leave: those of code, if they are in no member. -/
def looseSupersAs : Option String → Tree → List Tree
  | none, t => t.looseSupers
  | some _, _ => []

theorem isSuper_of_looseSupers {t : Tree} (plain : t.shape.isClass = false)
    (h : [t].flatMap (looseSupersAs none) = []) :
    t.shape.isSuper = false ∧ t.shape.children.flatMap looseSupers = [] := by
  rw [List.flatMap_singleton, looseSupersAs, looseSupers_of_not_isClass plain,
    List.append_eq_nil_iff, ownSuper] at h
  refine ⟨?_, h.2⟩
  by_contra hsuper
  simp [hsuper] at h

/-- The parts of a class on which there are no reports. -/
theorem unreported_parts {t : Tree} {parts : ClassParts Tree}
    (hparts : t.shape.classParts? = some parts) (unreported : [t].flatMap (misusesAs none) = [])
    (hloose : [t].flatMap (looseSupersAs none) = []) (c : String) (hasBase : Bool) :
    parts.heritage.toList.flatMap (misusesAs none) = [] ∧
      parts.heritage.toList.flatMap (looseSupersAs none) = [] ∧
      (withConstructor parts.members hasBase).flatMap (misusesAs (some c)) = [] := by
  rw [List.flatMap_singleton, misusesAs, misuses_of_class hparts, List.append_eq_nil_iff]
    at unreported
  rw [List.flatMap_singleton, looseSupersAs, looseSupers_of_class hparts] at hloose
  exact ⟨unreported.1, hloose, (misusesAs_withConstructor _ _ _).trans unreported.2⟩

end Tree

open Declass.Tree in
/-- **A lowering that reports nothing leaves no `super`,** if all are in members of classes. -/
theorem Lowers.superless {options : Options} {c : Option String} {a a' : Account}
    {ts ts' : List Tree} (h : Lowers options c a ts ts' a')
    (unreported : ts.flatMap (misusesAs c) = []) (hloose : ts.flatMap (looseSupersAs c) = []) :
    ∀ t ∈ ts', t.Superless := by
  have single {t : Tree} (ht : t.Superless) : ∀ u ∈ [t], u.Superless := by simpa using ht
  have hmembers {c : String} (ts : List Tree) : ts.flatMap (looseSupersAs (some c)) = [] :=
    List.flatMap_eq_nil_iff.mpr fun _ _ => rfl
  induction h with
  | nil => simp
  | cons _ _ ihHead ihTail =>
    rw [List.flatMap_cons, List.append_eq_nil_iff] at unreported hloose
    refine List.forall_mem_cons.mpr
      ⟨ihHead ?_ ?_ _ List.mem_cons_self, ihTail unreported.2 hloose.2⟩
    · rw [List.flatMap_singleton, unreported.1]
    · rw [List.flatMap_singleton, hloose.1]
  | walk plain _ below ih =>
    obtain ⟨hsuper, hchildren⟩ := isSuper_of_looseSupers plain hloose
    rw [List.flatMap_singleton, misusesAs, misuses_of_not_isClass plain] at unreported
    exact single (superless_withChildren hsuper below.length_eq (ih unreported hchildren))
  | scope owner below ih =>
    have plain := isClass_of_ownsTemps owner
    obtain ⟨hsuper, hchildren⟩ := isSuper_of_looseSupers plain hloose
    rw [List.flatMap_singleton, misusesAs, misuses_of_not_isClass plain] at unreported
    have hwalked := superless_withChildren hsuper below.length_eq (ih unreported hchildren)
    exact single (lenient_isSuper.declaring trivial hwalked _)
  | @classDecl _ _ _ _ _ _ base _ _ _ c named _ _ ihAbove ihBelow =>
    obtain ⟨hreports, hheritage, hbelow⟩ := unreported_parts rfl unreported hloose c base.isSome
    refine single (lenient_isSuper.declareClass trivial named ?_ _)
    exact lenient_isSuper.createClass (ihBelow hbelow (hmembers _)) (ihAbove hreports hheritage) _ _
  | @classExprBound a _ _ _ _ _ base _ _ _ _ _ _ ihAbove ihBelow =>
    obtain ⟨hreports, hheritage, hbelow⟩ :=
      unreported_parts rfl unreported hloose (Temps.name a.fresh) base.isSome
    refine single (lenient_isSuper.assignTemp ?_ _ _)
    exact lenient_isSuper.createClass (ihBelow hbelow (hmembers _)) (ihAbove hreports hheritage) _ _
  | @classExprFree a _ _ _ _ _ base _ _ _ _ _ _ ihAbove ihBelow =>
    obtain ⟨hreports, hheritage, hbelow⟩ :=
      unreported_parts rfl unreported hloose (Temps.name a.fresh) base.isSome
    refine single ?_
    exact lenient_isSuper.createClass (ihBelow hbelow (hmembers _)) (ihAbove hreports hheritage) _ _
  | member legal expanded below ih =>
    have owner := ownsTemps_of_ofShape? legal
    rw [List.flatMap_singleton, misusesAs, memberMisuses, legal,
      misuses_of_not_isClass (isClass_of_ownsTemps owner), List.append_eq_nil_iff,
      ← expanded.misuses_eq] at unreported
    have hexpanded := ih unreported.2 (expanded.looseSupers_eq_nil unreported.1)
    have hwalked := superless_withChildren (isSuper_of_ownsTemps owner)
      (below.length_eq.trans expanded.length_eq) hexpanded
    exact single (lenient_isSuper.asProperty (lenient_isSuper.declaring trivial hwalked _) _)

/-! ### Programs -/

/-- The children of a construct that are not members of a class. The name of a class is no code. -/
def Shape.outerChildren {α : Type} : Shape α → List α
  | .classDecl _ heritage _ | .classExpr _ heritage _ => heritage.toList
  | shape => shape.children

/-- `b` is reached from `a` without entering a member of a class. -/
def Store.ReachesOutside (s : Store) : NodeId → NodeId → Prop :=
  Relation.ReflTransGen fun a b => ∃ node, s.get? a = some node ∧ b ∈ node.shape.outerChildren

theorem Store.Grounded.looseSupers_eq_nil {s : Store} {n : Nat} {root : NodeId}
    (hg : s.Grounded root)
    (h : ∀ id node, s.ReachesOutside root id → s.get? id = some node → node.shape.isSuper = false) :
    (s.tree n root).looseSupers = [] := by
  induction hg with
  | @node root node found below ih =>
    have hbelow (c : NodeId) (houter : c ∈ node.shape.outerChildren)
        (hc : c ∈ node.shape.children) : (s.tree n c).looseSupers = [] :=
      ih c hc fun id node' hreach => h id node' (.head ⟨node, found, houter⟩ hreach)
    have htree := (Grounded.node found below).tree_eq (n := n) found
    rw [htree]
    cases hparts : node.shape.classParts? with
    | some parts =>
      rw [Tree.looseSupers_of_class (t := .node _ (node.shape.map (s.tree n)) _)
        (by rw [Tree.shape_node, Shape.classParts?_map, hparts]; rfl)]
      have hheritage : parts.heritage.toList = node.shape.outerChildren := by
        cases hs : node.shape <;> rw [hs] at hparts <;> cases hparts <;> rfl
      simp only [ClassParts.map, Option.toList_map, List.flatMap_map, List.flatMap_eq_nil_iff]
      intro c hc
      refine hbelow c (hheritage ▸ hc) ?_
      exact Shape.mem_children_of_mem_heritage hparts (Option.mem_toList.mp hc)
    | none =>
      have hplain : node.shape.isClass = false ∧
          node.shape.outerChildren = node.shape.children := by
        cases hs : node.shape <;> first | exact ⟨rfl, rfl⟩ | (rw [hs] at hparts; cases hparts)
      rw [Tree.looseSupers_of_plain]
      · rw [Tree.shape_node, Shape.children_map, List.flatMap_map, List.flatMap_eq_nil_iff]
        exact fun c hc => hbelow c (hplain.2 ▸ hc) hc
      · rw [Tree.shape_node, Shape.isClass_map, hplain.1]
      · rw [Tree.shape_node, Shape.isSuper_map]
        exact h root node .refl found

/-- The codes of the messages on uses of `super`. -/
def superCodes : List Nat :=
  [5002, 5003, 5004]

theorem SuperUse.code_of_mem_misuse? {kind : MemberKind} {nested : Bool} {use : SuperUse Tree}
    {misuse : Misuse} (h : misuse ∈ use.misuse? kind nested) :
    misuse.message.code ∈ superCodes := by
  have hcodes : ∀ message ∈ [Message.superOutsideMember, .bareSuper, .superCallOutsideConstructor],
      message.code ∈ superCodes := by decide
  exact hcodes _ (of_mem_misuse? h).2

namespace Tree

theorem code_of_mem_misusesIn {kind : MemberKind} {nested : Bool} {t : Tree} {misuse : Misuse}
    (h : misuse ∈ t.misusesIn kind nested) : misuse.message.code ∈ superCodes := by
  induction hheight : t.height using Nat.strong_induction_on generalizing t nested with
  | _ height ih =>
    subst hheight
    rw [misusesIn_eq, List.mem_append, List.mem_flatMap] at h
    rcases h with h | ⟨v, hv, h⟩
    · rw [ownMisuse] at h
      split at h
      · exact SuperUse.code_of_mem_misuse? (Option.mem_toList.mp h)
      · cases h
    · exact ih _ (height_inspected_lt hv) h rfl

theorem code_of_mem_misuses {t : Tree} :
    ∀ misuse ∈ t.misuses, misuse.message.code ∈ superCodes := by
  induction t with
  | node o s r ih =>
    intro misuse h
    cases hparts : s.classParts? with
    | none =>
      have plain : s.isClass = false := by cases s <;> first | rfl | cases hparts
      rw [misuses_of_not_isClass (t := .node o s r) plain] at h
      obtain ⟨c, hc, h⟩ := List.mem_flatMap.mp h
      exact ih c hc misuse h
    | some parts =>
      rw [misuses_of_class (t := .node o s r) hparts, List.mem_append] at h
      have hchildren := (Shape.sublist_children_of_classParts? hparts).subset
      rcases h with h | h
      · obtain ⟨c, hc, h⟩ := List.mem_flatMap.mp h
        exact ih c (hchildren (List.mem_append_left _ hc)) misuse h
      · obtain ⟨m, hm, h⟩ := List.mem_flatMap.mp h
        rcases List.mem_append.mp h with h | h
        · rw [memberMisuses] at h
          split at h
          · obtain ⟨c, -, h⟩ := List.mem_flatMap.mp h
            exact code_of_mem_misusesIn h
          · cases h
        · exact ih m (hchildren (List.mem_append_right _ hm)) misuse h

end Tree

/-- **No `super` is left behind in silence, and none is reported twice.** The reports of a run are
on different `super`s of the program. If all of these are in members of classes and none is
reported, then no `super` is reached from the result. -/
theorem lowerProgram_supers {s : Store} {root lowered : NodeId} {options : Options}
    {state : LoweringState} {session : Session LoweringState} (closed : s.Closed root)
    (acyclic : s.Acyclic root)
    (run : (lowerProgram options root).runOn ⟨s, state⟩ = (.ok lowered, session)) :
    let misuses := (s.tree s.size root).misuses
    let reports := misuses.map (Misuse.diagnostic state.journal.bag)
    session.state.journal.bag.diagnostics.toList =
        state.journal.bag.diagnostics.toList ++ reports ∧
      (∀ report ∈ reports, report.code ∈ superCodes) ∧
      (misuses.map Misuse.word).Subperm (s.tree s.size root).supers ∧
      ((∀ id node, s.ReachesOutside root id → s.get? id = some node →
          node.shape.isSuper = false) →
        (∀ report ∈ reports, report.code ∉ superCodes) →
        ∀ id node, session.store.Reaches lowered id → session.store.get? id = some node →
          node.shape.isSuper = false) := by
  intro misuses reports
  have hg : s.Grounded root := Store.grounded_iff.mpr ⟨closed, acyclic⟩
  obtain ⟨hlowered, hlowers⟩ := hg.lowers run
  have hcodes : ∀ report ∈ reports, report.code ∈ superCodes :=
    List.forall_mem_map.mpr Tree.code_of_mem_misuses
  have hbag : session.state.journal.bag = state.journal.bag.reportAll misuses := by
    have h := hlowers.bag_eq
    rwa [List.flatMap_singleton] at h
  refine ⟨by rw [hbag, Bag.reportAll, Array.toList_append], hcodes, ?_,
    fun inMembers none id node hreach found => ?_⟩
  · exact (Tree.misuses_subperm _).trans
      ((List.sublist_append_right _ _).subperm.trans (Tree.looseSupers_append_memberSupers _))
  · have hreports : reports = [] :=
      List.eq_nil_iff_forall_not_mem.mpr fun report hreport =>
        none report hreport (hcodes report hreport)
    have hnil : misuses = [] := List.map_eq_nil_iff.mp hreports
    have hsuperless := hlowers.superless (by simpa [Tree.misusesAs] using hnil)
      (by simpa [Tree.looseSupersAs] using hg.looseSupers_eq_nil inMembers)
    have htree := (hlowered.everywhere_of_reaches (hsuperless _ List.mem_cons_self) hreach).root
    rwa [(hlowered.reaches hreach).tree_eq found, Tree.shape_node, Shape.isSuper_map] at htree

/-- `class C extends B { m() { class extends super.x { n() { super.y; } }; } }`: the heritage of the
inner class is code of the outer member. -/
def innerHeirStore : Store where
  nodes := #[⟨.binding "C", none⟩, ⟨.identifier "B", none⟩, ⟨.superExpr, none⟩,
    ⟨.member ⟨2⟩ "x", none⟩, ⟨.superExpr, none⟩,
    ⟨.member ⟨4⟩ "y", none⟩, ⟨.exprStatement ⟨5⟩, none⟩,
    ⟨.block [⟨6⟩], none⟩, ⟨.method (.identifier "n") [] ⟨7⟩, none⟩,
    ⟨.classExpr none (some ⟨3⟩) [⟨8⟩], none⟩, ⟨.exprStatement ⟨9⟩, none⟩, ⟨.block [⟨10⟩], none⟩,
    ⟨.method (.identifier "m") [] ⟨11⟩, none⟩, ⟨.classDecl ⟨0⟩ (some ⟨1⟩) [⟨12⟩], none⟩,
    ⟨.program [⟨13⟩], none⟩]

/-- Both words are expanded, each by the member that it is code of. -/
theorem lowerProgram_supers_innerHeir : ∃ lowered session,
    (lowerProgram {} ⟨14⟩).runOn ⟨innerHeirStore, {}⟩ = (.ok lowered, session) ∧
      ∀ id node, session.store.Reaches lowered id → session.store.get? id = some node →
        node.shape.isSuper = false := by
  have fits : innerHeirStore.Fits 15 ⟨14⟩ := by decide +kernel
  obtain ⟨closed, acyclic⟩ := Store.grounded_iff.mp fits.grounded
  have outside (id : NodeId) (h : innerHeirStore.ReachesOutside ⟨14⟩ id) :
      id ∈ [⟨14⟩, ⟨13⟩, ⟨1⟩] := by
    induction h with
    | refl => decide
    | tail _ hstep ih =>
      have hclosed : ∀ a ∈ ([⟨14⟩, ⟨13⟩, ⟨1⟩] : List NodeId), ∀ node ∈ innerHeirStore.get? a,
          ∀ b ∈ node.shape.outerChildren, b ∈ ([⟨14⟩, ⟨13⟩, ⟨1⟩] : List NodeId) := by
        decide +kernel
      obtain ⟨node, found, hb⟩ := hstep
      exact hclosed _ ih node found _ hb
  have inMembers : ∀ id ∈ ([⟨14⟩, ⟨13⟩, ⟨1⟩] : List NodeId), ∀ node ∈ innerHeirStore.get? id,
      node.shape.isSuper = false := by
    decide +kernel
  have ok : ((lowerProgram {} ⟨14⟩).runOn ⟨innerHeirStore, {}⟩).1.isOk ∧
      ((lowerProgram {} ⟨14⟩).runOn ⟨innerHeirStore, {}⟩).2.state.journal.bag.diagnostics.toList =
        [] := by
    decide +kernel
  generalize run : (lowerProgram {} ⟨14⟩).runOn ⟨innerHeirStore, {}⟩ = out at ok ⊢
  obtain ⟨_ | lowered, session⟩ := out
  · cases ok.1
  · obtain ⟨hbag, -, -, hfree⟩ := lowerProgram_supers closed acyclic run
    have hnone := (List.append_eq_nil_iff.mp (hbag.symm.trans ok.2)).2
    refine ⟨lowered, session, rfl, hfree (fun id node h => inMembers id (outside id h) node) ?_⟩
    rw [hnone]
    exact fun report hreport => absurd hreport List.not_mem_nil

end Declass
