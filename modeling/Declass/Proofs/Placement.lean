import Declass.Proofs.ClassFree
import Declass.Proofs.Operators
import Declass.Proofs.SuperUses

/-!
# Where generated calls stand

Classes and uses of `super` become calls, and a call cannot stand everywhere: after `new` its
arguments would be taken for those of the new object, and it cannot be assigned to. This module
shows exactly where the lowering keeps to that. Two kinds of code go wrong. A class expression right
after `new` becomes a call as it stands, unless it uses `super` and so gets parentheses; and
`super.x` in parentheses is taken for a use of its value even where it is assigned to.

Whether a construct goes wrong depends on where it stands: a `super` is only expanded in a member of
a class, and there only outside of the functions in it. So what becomes of a tree is foreseen given
the member around it, if its uses of `super` are expanded, and `none` if they stay.

## Main definitions

* `Tree.settable` — the targets that can be assigned to
* `Tree.wellPlaced` — no call stands after `new` or is assigned to
* `Tree.parts` — the parts of a tree that are lowered, each with the member around it
* `Tree.clear`, `Tree.hazards` — the constructs at which a call will come to stand wrongly
* `Tree.Foresees` — what is foreseen of a tree is what becomes of it

## Main results

* `Expands.foresees`, `Lowers.settles` — what becomes of callees and targets
* `lowerProgram_wellPlaced` — lowered programs are well placed iff the source had no hazards
* `lowerProgram_misplaced` — two programs that are well placed and have hazards
-/

namespace Declass

open Edit Lowering

/-! ### Callees and targets -/

namespace Shape

variable {α β : Type}

/-- What is constructed by `new`. -/
def newCallee? : Shape α → Option α
  | .newExpr callee _ => some callee
  | _ => none

/-- What is assigned to, by an assignment or by `++` or `--`. -/
def target? : Shape α → Option α
  | .binary left operator _ => if operator ∈ assignmentOperators then some left else none
  | .unary operator operand => if (updateOperator? operator).isSome then some operand else none
  | _ => none

/-- Whether a shape is a call. -/
def isCall : Shape α → Bool
  | .call .. => true
  | _ => false

theorem newCallee?_map (f : α → β) (s : Shape α) : (s.map f).newCallee? = s.newCallee?.map f := by
  cases s <;> rfl

theorem target?_map (f : α → β) (s : Shape α) : (s.map f).target? = s.target?.map f := by
  cases s with
  | binary | unary =>
    simp only [map, target?]
    split <;> rfl
  | _ => rfl

theorem isCall_map (f : α → β) (s : Shape α) : (s.map f).isCall = s.isCall := by
  cases s <;> rfl

theorem mem_children_of_newCallee? {s : Shape α} {c : α} (h : s.newCallee? = some c) :
    c ∈ s.children := by
  cases s <;> cases h
  simp [children]

/-- A target is a child. -/
theorem mem_children_of_target? {s : Shape α} {c : α} (h : s.target? = some c) :
    c ∈ s.children := by
  cases s <;> simp only [target?, reduceCtorEq] at h <;> grind [children]

end Shape

namespace Tree

/-- Whether the tree can be assigned to: a name or a member, in parentheses or not. Members of
`super` may be left out. -/
def settable (ofSuper : Bool) : Tree → Bool :=
  para fun _ shape _ => match shape with
    | .identifier _ => true
    | .member target _ | .lookup target _ => ofSuper || !target.1.shape.isSuper
    | .paren expression => expression.2
    | _ => false

theorem settable_eq (ofSuper : Bool) (t : Tree) :
    t.settable ofSuper = match t.shape with
      | .identifier _ => true
      | .member target _ | .lookup target _ => ofSuper || !target.shape.isSuper
      | .paren expression => expression.settable ofSuper
      | _ => false := by
  obtain ⟨o, s, r⟩ := t
  rw [settable, para_node]
  cases s <;> rfl

/-- No call is constructed by `new`, and what is assigned to is a name or a member. -/
def wellPlaced (t : Tree) : Bool :=
  t.shape.newCallee?.all (!·.shape.isCall) && t.shape.target?.all (settable true)

/-! ### Uses of `super` -/

/-- Whether the tree is `super.x` or `super[x]`. -/
def isSuperAccess (t : Tree) : Bool :=
  (t.shape.superAccess? fun c => some c.shape).isSome

/-- An access to `super`, by its form. -/
theorem isSuperAccess_eq (t : Tree) :
    t.isSuperAccess = match t.shape with
      | .member target _ | .lookup target _ => target.shape.isSuper
      | _ => false := by
  rw [isSuperAccess]
  cases t.shape with
  | member | lookup =>
    simp only [Shape.superAccess?, Option.any_some]
    split <;> simp_all
  | _ => rfl

/-- A use of `super` cannot be assigned to if members of `super` are left out. -/
theorem settable_of_superRole_use {t : Tree} {use : SuperUse Tree} (role : t.superRole = .use use) :
    t.settable false = false := by
  have huse := Shape.isUse_of_superRole role
  rw [settable_eq]
  generalize t.shape = s at huse
  cases huse with
  | get target =>
    have haccess : (Tree.node none s none).isSuperAccess = true := by
      rw [isSuperAccess, shape_node, target, Option.isSome_some]
    rw [isSuperAccess_eq, shape_node] at haccess
    cases s <;> simp_all
  | _ => rfl

end Tree

/-! ### Foresight -/

/-- Whether the code that a use of `super` is expanded to is a call. A logical assignment becomes
an operator, and code that keeps a key in a temporary is put in parentheses. -/
def SuperUse.becomesCall {α : Type} : SuperUse α → Bool
  | .compound ⟨_, .named _⟩ operator _ => !isLogical operator
  | .compound ⟨_, .computed _⟩ _ _ | .update ⟨_, .computed _⟩ _ | .bare _ => false
  | _ => true

/-- The operator that an assignment to a member of `super` applies. -/
def SuperUse.applied? {α : Type} : SuperUse α → Option String
  | .compound _ operator _ | .update _ operator => some operator
  | _ => none

namespace Tree

/-- Whether the tree is a class expression in whose members no `super` is expanded. -/
def isBareClass (t : Tree) : Bool :=
  match t.shape with
  | .classExpr _ heritage members =>
    (withConstructor members heritage.isSome).all (·.memberScopes.isEmpty)
  | _ => false

/-- The use of `super` that the tree is, if it is expanded. -/
def expandedUse? (around : Option MemberKind) (t : Tree) : Option (SuperUse Tree) :=
  match t.superRole with
  | .use use => if around.any use.isExpanded then some use else none
  | _ => none

/-- Whether the tree becomes a call. -/
def becomesCall (around : Option MemberKind) (t : Tree) : Bool :=
  t.isBareClass || (t.expandedUse? around).any SuperUse.becomesCall

/-- The parts of a tree that are lowered, each with the member around it. In a function there is
none, and in a member of a class there is that member. -/
def parts (around : Option MemberKind) (t : Tree) : List (Option MemberKind × Tree) :=
  match t.expandedUse? around, t.shape.classParts? with
  | some use, _ => use.operands.map (around, ·)
  | none, some parts =>
    parts.heritage.toList.map (around, ·) ++ parts.members.flatMap fun member =>
      member.shape.children.map (MemberKind.ofShape? member.shape, ·)
  | none, none =>
    match t.superRole with
    | .nestedFunction => t.shape.children.map (none, ·)
    | _ => t.shape.children.map (around, ·)

/-- Nothing that is constructed by `new` becomes a call, and nothing that is assigned to is a member
of `super` that is expanded. Of an assignment that is itself expanded it is asked that it does not
apply an operator that assigns. -/
def clear (around : Option MemberKind) (t : Tree) : Bool :=
  match t.expandedUse? around with
  | some use => use.applied?.all (· ∉ assignmentOperators)
  | none => t.shape.newCallee?.all (!·.becomesCall around) &&
      t.shape.target?.all (settable around.isNone)

/-- Nothing that is constructed by `new` is or becomes a call, and what is assigned to can be
assigned to when it is lowered. -/
def staysPlaced (around : Option MemberKind) (t : Tree) : Bool :=
  match t.expandedUse? around with
  | some use => use.applied?.all (· ∉ assignmentOperators)
  | none => t.shape.newCallee?.all (fun c => !(c.shape.isCall || c.becomesCall around)) &&
      t.shape.target?.all (settable around.isNone)

section Parts

variable {around : Option MemberKind} {t : Tree}

theorem expandedUse?_eq_some_iff {use : SuperUse Tree} : t.expandedUse? around = some use ↔
    t.superRole = .use use ∧ around.any (fun kind => use.isExpanded kind) = true := by
  rw [expandedUse?]
  split <;> simp_all
  grind

theorem expandedUse?_none (t : Tree) : t.expandedUse? none = none := by
  rw [expandedUse?]
  split <;> rfl

theorem expandedUse?_of_ne (h : ∀ use, t.superRole ≠ .use use) : t.expandedUse? around = none :=
  Option.eq_none_iff_forall_ne_some.mpr fun use huse => h use (expandedUse?_eq_some_iff.mp huse).1

/-- Where nothing is expanded, a member stays a target. -/
theorem settable_of_idle (hidle : t.expandedUse? around = none) :
    t.settable around.isNone = match t.shape with
      | .identifier _ | .member .. | .lookup .. => true
      | .paren expression => expression.settable around.isNone
      | _ => false := by
  rw [settable_eq]
  cases hs : t.shape with
  | member target | lookup target =>
    cases around with
    | none => rfl
    | some kind =>
      cases hword : target.shape.isSuper with
      | false => simp [hword]
      | true =>
        simp [expandedUse?, superRole, hs, Shape.superRole, Shape.superAccess?, hword,
          SuperUse.isExpanded] at hidle
  | _ => rfl

theorem isBareClass_of_plain (plain : t.shape.isClass = false) : t.isBareClass = false := by
  rw [isBareClass]
  split
  case h_1 hs => rw [hs] at plain; cases plain
  case h_2 => rfl

theorem parts_use {use : SuperUse Tree} (h : t.expandedUse? around = some use) :
    t.parts around = use.operands.map (around, ·) := by
  rw [parts, h]

theorem parts_class {parts : ClassParts Tree} (h : t.shape.classParts? = some parts) :
    t.parts around = parts.heritage.toList.map (around, ·) ++ parts.members.flatMap fun member =>
      member.shape.children.map (MemberKind.ofShape? member.shape, ·) := by
  have hclass : t.shape.isClass = true := by
    generalize t.shape = s at h
    cases s <;> first | rfl | cases h
  have role : t.superRole = .nestedClass := Shape.superRole_of_isClass hclass
  have hidle : t.expandedUse? around = none := expandedUse?_of_ne (by simp [role])
  rw [Tree.parts, hidle, h]

theorem classParts?_of_plain (plain : t.shape.isClass = false) : t.shape.classParts? = none := by
  generalize t.shape = s at plain
  cases s <;> first | rfl | cases plain

theorem parts_nestedFunction (role : t.superRole = .nestedFunction) :
    t.parts around = t.shape.children.map (none, ·) := by
  rw [parts, expandedUse?_of_ne (by simp [role]),
    classParts?_of_plain (isClass_of_superRole_ne (by simp [role]))]
  simp only [role]

/-- All children are lowered where nothing is expanded. -/
theorem parts_plain (plain : t.shape.isClass = false) (hidle : t.expandedUse? around = none)
    (h : around = none ∨ t.superRole ≠ .nestedFunction) :
    t.parts around = t.shape.children.map (around, ·) := by
  rw [parts, hidle, classParts?_of_plain plain]
  dsimp only
  rcases h with rfl | role
  · split <;> rfl
  · split <;> first | rfl | exact absurd ‹_› role

theorem parts_none (plain : t.shape.isClass = false) :
    t.parts none = t.shape.children.map (none, ·) :=
  parts_plain plain (expandedUse?_none t) (.inl rfl)

theorem mem_parts_cases {v : Option MemberKind × Tree} (h : v ∈ t.parts around) :
    (∃ use, t.superRole = .use use ∧ v.2 ∈ use.operands) ∨ v.2 ∈ t.shape.children ∨
      ∃ member ∈ t.shape.children, v.2 ∈ member.shape.children := by
  rw [parts] at h
  split at h
  case h_1 use huse =>
    obtain ⟨c, hc, rfl⟩ := List.mem_map.mp h
    exact .inl ⟨use, (expandedUse?_eq_some_iff.mp huse).1, hc⟩
  case h_2 parts _ hparts =>
    have hmembers : ∀ m ∈ parts.members, m ∈ t.shape.children := by
      generalize t.shape = s at hparts
      cases s <;> cases hparts <;> simp +contextual [Shape.children]
    rcases List.mem_append.mp h with h | h
    · obtain ⟨c, hc, rfl⟩ := List.mem_map.mp h
      exact .inr (.inl (Shape.mem_children_of_mem_heritage hparts (Option.mem_toList.mp hc)))
    · obtain ⟨m, hm, h⟩ := List.mem_flatMap.mp h
      obtain ⟨c, hc, rfl⟩ := List.mem_map.mp h
      exact .inr (.inr ⟨m, hmembers m hm, hc⟩)
  case h_3 =>
    split at h
    all_goals
      obtain ⟨c, hc, rfl⟩ := List.mem_map.mp h
      exact .inr (.inl hc)

theorem Everywhere.part {p : Tree → Prop} (ht : t.Everywhere p) {v : Option MemberKind × Tree}
    (h : v ∈ t.parts around) : v.2.Everywhere p := by
  rcases mem_parts_cases h with ⟨use, role, hc⟩ | hc | ⟨member, hmember, hc⟩
  · exact ht.operand role hc
  · exact ht.child hc
  · exact (ht.child hmember).child hc

theorem height_part_lt {v : Option MemberKind × Tree} (h : v ∈ t.parts around) :
    v.2.height < t.height := by
  have child {t c : Tree} (hc : c ∈ t.shape.children) : c.height < t.height := by
    obtain ⟨o, s, r⟩ := t
    exact height_lt_of_mem_children hc
  rcases mem_parts_cases h with ⟨use, role, hc⟩ | hc | ⟨member, hmember, hc⟩
  · exact height_operand_lt role hc
  · exact child hc
  · exact (child hc).trans (child hmember)

end Parts

/-! ### Constructs that fail -/

/-- The constructs of a tree of which `p` does not hold, given the member around each of them. -/
def failures (p : Option MemberKind → Tree → Bool) (around : Option MemberKind) (t : Tree) :
    List Tree :=
  (if p around t then [] else [t]) ++
    (t.parts around).attach.flatMap fun v => failures p v.1.1 v.1.2
termination_by t.height
decreasing_by exact height_part_lt v.2

theorem failures_eq (p : Option MemberKind → Tree → Bool) (around : Option MemberKind) (t : Tree) :
    t.failures p around = (if p around t then [] else [t]) ++
      (t.parts around).flatMap fun v => v.2.failures p v.1 := by
  have hattach : ((t.parts around).attach.flatMap fun v => v.1.2.failures p v.1.1) =
      (t.parts around).attach.unattach.flatMap fun v => v.2.failures p v.1 :=
    List.flatMap_subtype fun _ _ => rfl
  rw [failures, hattach, List.unattach_attach]

/-- The constructs at which a call will come to stand after `new` or be assigned to. -/
def hazards (t : Tree) : List Tree :=
  t.failures clear none

/-- In a tree that is well placed, only what becomes a call can fail. -/
theorem failures_clear {around : Option MemberKind} {t : Tree}
    (h : t.Everywhere fun u => u.wellPlaced = true) :
    t.failures clear around = t.failures staysPlaced around := by
  have hroot : t.clear around = t.staysPlaced around := by
    obtain ⟨hcallee, -⟩ := Bool.and_eq_true_iff.mp h.root
    rw [clear, staysPlaced]
    cases hc : t.shape.newCallee? with
    | none => rfl
    | some c =>
      rw [hc, Option.all_some, Bool.not_eq_true'] at hcallee
      simp [hcallee]
  rw [failures_eq, failures_eq, hroot]
  congr 1
  refine List.flatMap_congr fun v hv => ?_
  exact failures_clear (h.part hv)
termination_by t.height
decreasing_by exact height_part_lt hv

/-- The constructs at which a call comes to stand after `new` or to be assigned to. -/
def misplaced (around : Option MemberKind) (t : Tree) : List Tree :=
  t.failures staysPlaced around

section Misplaced

variable {around : Option MemberKind} {t : Tree}

/-- The misplaced constructs are those at the top and those in the parts. -/
theorem misplaced_eq (around : Option MemberKind) (t : Tree) :
    t.misplaced around = (if t.staysPlaced around then [] else [t]) ++
      (t.parts around).flatMap fun v => v.2.misplaced v.1 :=
  failures_eq staysPlaced around t

theorem misplaced_eq_nil_iff : t.misplaced around = [] ↔
    t.staysPlaced around = true ∧ ∀ v ∈ t.parts around, v.2.misplaced v.1 = [] := by
  rw [misplaced_eq, List.append_eq_nil_iff, List.flatMap_eq_nil_iff]
  refine and_congr_left' ?_
  split <;> simp_all

/-- A construct that neither constructs nor assigns. -/
theorem staysPlaced_of_idle (hcallee : t.shape.newCallee? = none) (htarget : t.shape.target? = none)
    (hidle : t.expandedUse? around = none) : t.staysPlaced around = true := by
  rw [staysPlaced, hidle, hcallee, htarget]
  rfl

theorem misplaced_of_idle (plain : t.shape.isClass = false) (hcallee : t.shape.newCallee? = none)
    (htarget : t.shape.target? = none) :
    t.misplaced none = t.shape.children.flatMap (misplaced none) := by
  rw [misplaced_eq, staysPlaced_of_idle hcallee htarget (expandedUse?_none t),
    parts_none plain, List.flatMap_map]
  rfl

theorem misplaced_use {use : SuperUse Tree} (h : t.expandedUse? around = some use) :
    t.misplaced around = [] ↔ (∀ operator ∈ use.applied?, operator ∉ assignmentOperators) ∧
      use.operands.flatMap (misplaced around) = [] := by
  rw [misplaced_eq_nil_iff, parts_use h, staysPlaced, h]
  simp [Option.all_eq_true]

/-- What is misplaced in a member of a class. -/
def misplacedInMember (member : Tree) : List Tree :=
  member.shape.children.flatMap (misplaced (MemberKind.ofShape? member.shape))

/-- In a class the members are looked at as such. -/
theorem misplaced_class {parts : ClassParts Tree} (h : t.shape.classParts? = some parts) :
    t.misplaced around =
      parts.heritage.toList.flatMap (misplaced around) ++
        parts.members.flatMap misplacedInMember := by
  have hclass : t.shape.newCallee? = none ∧
      t.shape.target? = none ∧ t.superRole = .nestedClass := by
    rw [superRole]
    generalize t.shape = s at h
    cases s <;> first | exact ⟨rfl, rfl, rfl⟩ | cases h
  obtain ⟨hcallee, htarget, role⟩ := hclass
  have hroot : t.staysPlaced around = true :=
    staysPlaced_of_idle hcallee htarget (expandedUse?_of_ne (by simp [role]))
  rw [misplaced_eq, hroot, parts_class h]
  simp only [List.flatMap_append, List.flatMap_map, List.flatMap_assoc]
  rfl

theorem misplaced_nestedFunction (role : t.superRole = .nestedFunction)
    (around : Option MemberKind) : t.misplaced around = t.misplaced none := by
  have hshape : t.shape.newCallee? = none ∧ t.shape.target? = none := by
    rw [superRole] at role
    generalize t.shape = s at role
    cases s with
    | newExpr => cases role
    | binary | unary => unfold Shape.superRole at role; grind
    | _ => exact ⟨rfl, rfl⟩
  have hidle (around : Option MemberKind) : t.expandedUse? around = none :=
    expandedUse?_of_ne (by simp [role])
  rw [misplaced_eq, misplaced_eq none, parts_nestedFunction role,
    parts_nestedFunction role, staysPlaced_of_idle hshape.1 hshape.2 (hidle _),
    staysPlaced_of_idle hshape.1 hshape.2 (hidle _)]

/-- In code without classes, what is misplaced is what is not well placed. -/
theorem ClassFree.misplaced_eq_nil_iff (h : t.ClassFree) :
    t.misplaced none = [] ↔ t.Everywhere fun u => u.wellPlaced = true := by
  induction h with
  | @node o s r plain below ih =>
    have hroot : (Tree.node o s r).staysPlaced none = (Tree.node o s r).wellPlaced := by
      rw [staysPlaced, expandedUse?_none, wellPlaced]
      cases hc : (Tree.node o s r).shape.newCallee? with
      | none => rfl
      | some c =>
        have hbare := isBareClass_of_plain (below c (Shape.mem_children_of_newCallee? hc)).root
        simp [becomesCall, hbare, expandedUse?_none]
    rw [Tree.misplaced_eq_nil_iff, everywhere_node, hroot, parts_none plain, List.forall_mem_map]
    exact and_congr_right fun _ => forall₂_congr ih

end Misplaced

/-! ### Generated code -/

/-- Nothing is misplaced by the scaffold. -/
theorem permeable_misplaced : Permeable (misplaced none) where
  through t h := by
    have hplain : t.shape.isClass = false ∧ t.shape.newCallee? = none ∧ t.shape.target? = none := by
      generalize t.shape = s at h
      cases s <;> first | exact ⟨rfl, rfl, rfl⟩ | cases h
    exact misplaced_of_idle hplain.1 hplain.2.1 hplain.2.2
  leaf s h := by
    have hplain : s.isClass = false ∧ s.newCallee? = none ∧ s.target? = none := by
      cases s <;> first | exact ⟨rfl, rfl, rfl⟩ | cases h
    have heq := misplaced_of_idle (t := gen s) hplain.1 hplain.2.1 hplain.2.2
    rwa [gen, shape_node, Shape.children_eq_nil_of_isLeaf h, List.flatMap_nil] at heq
  assign number value := by
    have htemp : (temp number).misplaced none = [] := misplaced_of_idle rfl rfl rfl
    have hroot : (assign (temp number) value).staysPlaced none = true := by
      have htarget : (assign (temp number) value).shape.target? = some (temp number) := rfl
      rw [staysPlaced, expandedUse?_none, htarget, Option.all_some, settable_eq]
      rfl
    have hparts : (assign (temp number) value).parts none = [(none, temp number), (none, value)] :=
      parts_none rfl
    rw [misplaced_eq, hroot, hparts]
    simp [htemp]

/-- A generated operator after something that cannot be assigned to. -/
theorem misplaced_binary {left right : Tree} {operator : String} {r : Option Range}
    (hleft : left.settable true = false) :
    (Tree.node none (.binary left operator right) r).misplaced none = [] ↔
      operator ∉ assignmentOperators ∧ left.misplaced none = [] ∧ right.misplaced none = [] := by
  have hroot : (Tree.node none (.binary left operator right) r).staysPlaced none = true ↔
      operator ∉ assignmentOperators := by
    simp only [staysPlaced, expandedUse?_none, shape_node, Shape.newCallee?, Shape.target?]
    split <;> simp_all
  rw [misplaced_eq_nil_iff, hroot, parts_none rfl]
  simp [Shape.children]

end Tree

namespace Site

open Declass.Tree

variable {site : Site}

theorem misplaced_helperCall (helper : Helper) (arguments : List Tree) (range : Option Range) :
    (site.helperCall helper arguments range).misplaced none =
      arguments.flatMap (misplaced none) := by
  have hident (name : String) : (ident name).misplaced none = [] := permeable_misplaced.leaf _ rfl
  have hthis : (gen .thisExpr).misplaced none = [] := permeable_misplaced.leaf _ rfl
  have hcallee : (Tree.helper site.runtimeName helper).misplaced none = [] := by
    rw [Tree.helper, gen, permeable_misplaced.node rfl]
    simp [Shape.children, hident]
  rw [helperCall, permeable_misplaced.node rfl]
  simp [Shape.children, hcallee, hident, hthis]

theorem misplaced_superGet (key : Tree) (range : Option Range) :
    (site.superGet key range).misplaced none = key.misplaced none := by
  simp [superGet, misplaced_helperCall]

theorem misplaced_superSet (key value : Tree) (range : Option Range) :
    (site.superSet key value range).misplaced none =
      key.misplaced none ++ value.misplaced none := by
  simp [superSet, misplaced_helperCall]

theorem misplaced_superCall (key : Tree) (arguments : List Tree) (range : Option Range) :
    (site.superCall key arguments range).misplaced none =
      key.misplaced none ++ arguments.flatMap (misplaced none) := by
  have harray : (gen (.array arguments)).misplaced none = arguments.flatMap (misplaced none) :=
    misplaced_of_idle rfl rfl rfl
  simp [superCall, misplaced_helperCall, harray]

theorem misplaced_compound {key value : Tree} {operator : String} {range : Option Range} :
    (site.compound key operator value range).misplaced none = [] ↔
      operator ∉ assignmentOperators ∧ key.misplaced none = [] ∧ value.misplaced none = [] := by
  have hget : (site.superGet key none).settable true = false := settable_eq _ _
  rw [compound]
  split
  · rw [misplaced_binary hget, misplaced_superGet, misplaced_superSet]
    simp
  · rw [misplaced_superSet, List.append_eq_nil_iff, gen, misplaced_binary hget, misplaced_superGet]
    tauto

theorem misplaced_update {key : Tree} {operator : String} {range : Option Range} :
    (site.update key operator range).misplaced none = [] ↔
      operator ∉ assignmentOperators ∧ key.misplaced none = [] := by
  have hcurrent : (gen (.unary "+" (site.superGet key none))).misplaced none =
      key.misplaced none := by
    rw [gen, misplaced_of_idle rfl rfl rfl]
    simp [Shape.children, misplaced_superGet]
  have hone : (gen (.literal (.number "1"))).misplaced none = [] := permeable_misplaced.leaf _ rfl
  have hset : (gen (.unary "+" (site.superGet key none))).settable true = false := settable_eq _ _
  rw [update, misplaced_superSet, List.append_eq_nil_iff]
  refine (and_congr_right' (misplaced_binary hset)).trans ?_
  rw [hcurrent, hone]
  tauto

theorem misplaced_sequence (number : Nat) (key expression : Tree) (range : Option Range) :
    (sequence number key expression range).misplaced none =
      key.misplaced none ++ expression.misplaced none := by
  have hcomma : (gen (.comma [.assign (temp number) key, expression])).misplaced none =
      key.misplaced none ++ expression.misplaced none := by
    rw [gen, misplaced_of_idle rfl rfl rfl]
    simp [Shape.children, permeable_misplaced.assign]
  rw [sequence, permeable_misplaced.node rfl]
  simp [Shape.children, hcomma]

theorem misplaced_text (name : String) : (text name).misplaced none = [] :=
  permeable_misplaced.leaf _ rfl

theorem Key.misplaced {key : MemberKey Tree} {keys : List Tree} {k : Tree} (h : Key key keys k) :
    k.misplaced none = keys.flatMap (Tree.misplaced none) := by
  cases h with
  | named => simp [misplaced_text]
  | computed => simp

/-- In the code of a use only its operands and its operator can be misplaced. -/
theorem Direct.misplaced {range : Option Range} {use : SuperUse Tree} {operands : List Tree}
    {t : Tree} (code : site.Direct range use operands t) : t.misplaced none = [] ↔
      (∀ operator ∈ use.applied?, operator ∉ assignmentOperators) ∧
        operands.flatMap (Tree.misplaced none) = [] := by
  cases code with
  | call => simp [misplaced_superCall, misplaced_text, SuperUse.applied?]
  | methodCall written => simp [misplaced_superCall, written.misplaced, SuperUse.applied?]
  | assign written => simp [misplaced_superSet, written.misplaced, SuperUse.applied?]
  | get written => simp [misplaced_superGet, written.misplaced, SuperUse.applied?]
  | compound => simp [misplaced_compound, misplaced_text, SuperUse.applied?]
  | update => simp [misplaced_update, misplaced_text, SuperUse.applied?]

theorem Bound.misplaced {range : Option Range} {number : Nat} {use : SuperUse Tree} {key t : Tree}
    {rest : List Tree} (code : site.Bound range number use key rest t) : t.misplaced none = [] ↔
      (∀ operator ∈ use.applied?, operator ∉ assignmentOperators) ∧
        (key :: rest).flatMap (Tree.misplaced none) = [] := by
  have htemp : (temp number).misplaced none = [] := permeable_misplaced.leaf _ rfl
  cases code with
  | compound =>
    simp [misplaced_sequence, misplaced_compound, htemp, SuperUse.applied?, and_left_comm]
  | update => simp [misplaced_sequence, misplaced_update, htemp, SuperUse.applied?, and_comm]

/-- The code of a use is a call, an operator or in parentheses. -/
theorem Direct.plain {range : Option Range} {use : SuperUse Tree} {operands : List Tree} {t : Tree}
    (code : site.Direct range use operands t) : t.shape.isClass = false ∧
      t.shape.isCall = use.becomesCall ∧ t.settable true = false := by
  cases code with
  | @compound _ _ _ _ operator =>
    rw [Site.compound]
    split
    case isTrue h => exact ⟨rfl, by simp [Shape.isCall, SuperUse.becomesCall, h], settable_eq _ _⟩
    case isFalse h =>
      exact ⟨rfl, by simp [superSet, helperCall, Shape.isCall, SuperUse.becomesCall, h],
        settable_eq _ _⟩
  | _ => exact ⟨rfl, rfl, settable_eq _ _⟩

theorem Bound.plain {range : Option Range} {number : Nat} {use : SuperUse Tree} {key t : Tree}
    {rest : List Tree} (code : site.Bound range number use key rest t) :
    t.shape.isClass = false ∧ t.shape.isCall = use.becomesCall ∧ t.settable true = false := by
  have hset (number : Nat) (key expression : Tree) (range : Option Range) :
      (sequence number key expression range).settable true = false := by
    rw [settable_eq, sequence, shape_node]
    exact settable_eq _ _
  cases code <;> exact ⟨rfl, rfl, hset _ _ _ _⟩

end Site

/-! ### Expansion -/

namespace Tree

/-- What is foreseen of `t` in a member is what is foreseen of `t'` where no `super` is expanded. -/
structure Foresees (around : Option MemberKind) (t t' : Tree) : Prop where
  isCall : (t'.shape.isCall || t'.becomesCall none) = (t.shape.isCall || t.becomesCall around)
  settable : t'.settable true = t.settable around.isNone
  misplaced : t'.misplaced none = [] ↔ t.misplaced around = []

theorem becomesCall_none (t : Tree) : t.becomesCall none = t.isBareClass := by
  rw [becomesCall, expandedUse?_none, Option.any_none, Bool.or_false]

theorem becomesCall_of_plain {t : Tree} {around : Option MemberKind}
    (plain : t.shape.isClass = false) (hidle : t.expandedUse? around = none) :
    t.becomesCall around = false := by
  rw [becomesCall, isBareClass_of_plain plain, hidle]
  rfl

namespace Foresees

variable {around : Option MemberKind} {t t' : Tree}

theorem refl (t : Tree) : Foresees none t t :=
  ⟨rfl, rfl, Iff.rfl⟩

theorem flatMap_eq_nil {ts ts' : List Tree} (h : List.Forall₂ (Foresees around) ts ts') :
    ts'.flatMap (Tree.misplaced none) = [] ↔ ts.flatMap (Tree.misplaced around) = [] := by
  induction h with
  | nil => rfl
  | cons head _ ih =>
    rw [List.flatMap_cons, List.flatMap_cons, List.append_eq_nil_iff, List.append_eq_nil_iff,
      head.misplaced, ih]

/-- A construct of which nothing is expanded but its parts. -/
theorem refill {cs : List Tree} {o' : Option NodeId} {r' : Option Range}
    (plain : t.shape.isClass = false) (hidle : t.expandedUse? around = none)
    (role : around = none ∨ t.superRole ≠ .nestedFunction)
    (h : List.Forall₂ (Foresees around) t.shape.children cs) :
    Foresees around t (.node o' (t.shape.refill cs) r') := by
  have hparts := parts_plain plain hidle role
  have hset := settable_of_idle hidle
  obtain ⟨o, s, r⟩ := t
  obtain ⟨z, rfl : s = _, hsnd, hz⟩ := Shape.exists_pairs_of_forall₂ h
  rw [hsnd]
  have plain' : (Tree.node o' (z.map Prod.snd) r').shape.isClass = false := by
    rw [shape_node, Shape.isClass_map, ← Shape.isClass_map Prod.fst]
    exact plain
  have hroot : (Tree.node o' (z.map Prod.snd) r').staysPlaced none =
      (Tree.node o (z.map Prod.fst) r).staysPlaced around := by
    simp only [staysPlaced, hidle, expandedUse?_none, shape_node, Shape.newCallee?_map,
      Shape.target?_map, Option.all_map]
    congr 1
    · cases hc : z.newCallee? with
      | none => rfl
      | some p => exact congrArg not (hz p (Shape.mem_children_of_newCallee? hc)).isCall
    · cases hc : z.target? with
      | none => rfl
      | some p => exact (hz p (Shape.mem_children_of_target? hc)).settable
  refine ⟨?_, ?_, ?_⟩
  · rw [becomesCall_of_plain plain' (expandedUse?_none _), becomesCall_of_plain plain hidle,
      shape_node, shape_node, Shape.isCall_map, Shape.isCall_map]
  · rw [hset, settable_eq]
    cases z with
    | paren p => exact (hz p (by simp [Shape.children])).settable
    | _ => rfl
  · rw [misplaced_eq_nil_iff, misplaced_eq_nil_iff, hroot, hparts, parts_none plain']
    simp only [shape_node, Shape.children_map, List.forall_mem_map]
    exact and_congr_right fun _ => forall₂_congr fun p hp => (hz p hp).misplaced

/-- The word `super` alone. -/
theorem word (h : t.shape.isSuper = true) : Foresees around t t := by
  obtain ⟨o, s, r⟩ := t
  obtain rfl : s = .superExpr := shape_eq_superExpr h
  have hidle : (Tree.node o .superExpr r).expandedUse? around = none := by
    cases around <;> rfl
  exact refill rfl hidle (.inr nofun) .nil

/-- A function in a member. -/
theorem nestedFunction (role : t.superRole = .nestedFunction) (h : Foresees none t t') :
    Foresees around t t' := by
  have hset (ofSuper : Bool) : t.settable ofSuper = false := by
    rw [settable_eq]
    rw [superRole] at role
    generalize t.shape = s at role
    cases s with
    | identifier | paren => cases role
    | member | lookup => unfold Shape.superRole at role; grind
    | _ => rfl
  have hidle (around : Option MemberKind) : t.expandedUse? around = none :=
    expandedUse?_of_ne (by simp [role])
  refine ⟨?_, ?_, ?_⟩
  · rw [h.isCall, becomesCall, becomesCall, hidle, hidle]
  · rw [h.settable, hset, hset]
  · rw [h.misplaced, misplaced_nestedFunction role around]

/-- A class with another heritage. -/
theorem ofClass {o : Option NodeId} {s s' : Shape Tree} {r : Option Range}
    {parts parts' : ClassParts Tree} (hs : s.classParts? = some parts)
    (hs' : s'.classParts? = some parts') (members : parts'.members = parts.members)
    (bare : (Tree.node o s' r).isBareClass = (Tree.node o s r).isBareClass)
    (h : List.Forall₂ (Foresees around) parts.heritage.toList parts'.heritage.toList) :
    Foresees around (.node o s r) (.node o s' r) := by
  have hplain {s : Shape Tree} {parts : ClassParts Tree} (hs : s.classParts? = some parts) :
      s.isCall = false ∧ (∀ ofSuper, (Tree.node o s r).settable ofSuper = false) ∧
        ∀ around, (Tree.node o s r).expandedUse? around = none := by
    cases s with
    | classDecl | classExpr => exact ⟨rfl, fun _ => settable_eq _ _, fun _ => rfl⟩
    | _ => cases hs
  obtain ⟨hcall, hset, hidle⟩ := hplain hs
  obtain ⟨hcall', hset', hidle'⟩ := hplain hs'
  refine ⟨?_, ?_, ?_⟩
  · rw [becomesCall, becomesCall, hidle, hidle', bare, shape_node, shape_node, hcall, hcall']
  · rw [hset, hset']
  · rw [misplaced_class (t := .node o s r) hs, misplaced_class (t := .node o s' r) hs', members,
      List.append_eq_nil_iff, List.append_eq_nil_iff, flatMap_eq_nil h]

/-- A use of `super` that becomes other code. -/
theorem ofUse {use : SuperUse Tree} {kind : MemberKind} (role : t.superRole = .use use)
    (expanded : use.isExpanded kind = true) (plain : t'.shape.isClass = false)
    (isCall : t'.shape.isCall = use.becomesCall) (hset : t'.settable true = false)
    (misplaced : t'.misplaced none = [] ↔
      (∀ operator ∈ use.applied?, operator ∉ assignmentOperators) ∧
        use.operands.flatMap (Tree.misplaced (some kind)) = []) : Foresees (some kind) t t' := by
  have huse : t.expandedUse? (some kind) = some use :=
    expandedUse?_eq_some_iff.mpr ⟨role, expanded⟩
  refine ⟨?_, ?_, ?_⟩
  · have hcall : t.shape.isCall = true → use.becomesCall = true := by
      have := Shape.isUse_of_superRole role
      generalize t.shape = s at this
      cases this with
      | get | call | methodCall => exact fun _ => rfl
      | _ => exact fun h => by cases h
    have hclass : t.shape.isClass = false := isClass_of_superRole_ne (by simp [role])
    rw [becomesCall_of_plain plain (expandedUse?_none t'), isCall, becomesCall, huse,
      isBareClass_of_plain hclass]
    cases hc : t.shape.isCall with
    | false => simp
    | true => simp [hcall hc]
  · rw [hset]
    exact (settable_of_superRole_use role).symm
  · rw [misplaced, misplaced_use huse]

end Foresees

end Tree

open Declass.Tree in
/-- **What is foreseen of the code of a member is what is foreseen of its expansion.** -/
theorem Expands.foresees {site : Site} {nested : Bool} {a a' : Account} {ts ts' : List Tree}
    (h : Expands site nested a ts ts' a') :
    List.Forall₂ (Foresees (if nested then none else some site.kind)) ts ts' := by
  have single {around : Option MemberKind} {t t' : Tree} (h : Foresees around t t') :
      List.Forall₂ (Foresees around) [t] [t'] := .cons h .nil
  induction h with
  | nil => exact .nil
  | cons _ _ ihHead ihTail => exact .cons (List.forall₂_cons.mp ihHead).1 ihTail
  | walk role _ ih =>
    exact single (.refill (isClass_of_superRole_ne (by simp [role]))
      (expandedUse?_of_ne (by simp [role])) (.inr (by simp [role])) ih)
  | @enter _ _ _ t _ role _ ih =>
    have plain : t.shape.isClass = false := isClass_of_superRole_ne (by simp [role])
    exact single (.nestedFunction role (.refill plain (expandedUse?_none t) (.inl rfl) ih))
  | classDecl _ ih => exact single (.ofClass rfl rfl rfl rfl ih)
  | @classExpr _ _ _ _ _ heritage heritage' _ _ _ ih =>
    have hsome : heritage'.isSome = heritage.isSome := by
      cases heritage <;> cases heritage' <;> first | rfl | cases ih
    refine single (.ofClass rfl rfl rfl ?_ ih)
    simp only [isBareClass, shape_node, hsome]
  | misplaced _ => exact single (.refl _)
  | @bare _ t word role =>
    refine single (.word ?_)
    have huse := Shape.isUse_of_superRole role
    generalize t.shape = s at huse
    cases huse
    rfl
  | @stray _ _ t word arguments arguments' role kind _ ih =>
    have hword : word.shape.isSuper = true := by
      have huse := Shape.isUse_of_superRole role
      generalize t.shape = s at huse
      cases huse
      assumption
    obtain ⟨o, s, r⟩ := t
    obtain rfl : s = .call word arguments := Shape.eq_call_of_superRole role
    have hidle : (Tree.node o (.call word arguments) r).expandedUse? (some site.kind) = none := by
      simp [expandedUse?, role, SuperUse.isExpanded, kind]
    exact single (.refill rfl hidle (.inr (by simp [role])) (.cons (.word hword) ih))
  | direct role _ code ih =>
    obtain ⟨plain, isCall, hset⟩ := code.plain
    refine single (.ofUse role code.isExpanded plain isCall hset ?_)
    rw [code.misplaced]
    exact and_congr_right' (Foresees.flatMap_eq_nil ih)
  | bound role operands _ _ code ihKey ihRest =>
    obtain ⟨plain, isCall, hset⟩ := code.plain
    refine single (.ofUse role code.isExpanded plain isCall hset ?_)
    rw [code.misplaced, operands]
    exact and_congr_right' (Foresees.flatMap_eq_nil (.cons (List.forall₂_cons.mp ihKey).1 ihRest))

/-! ### Lowering -/

namespace Tree

/-- What is foreseen of `t` is what becomes of it. Of a member it is only asked that nothing is
misplaced in it. -/
def Settles (class? : Option String) (t t' : Tree) : Prop :=
  match class? with
  | none => Foresees none t t'
  | some _ => t'.misplaced none = [] ↔ t.misplacedInMember = []

theorem misplaced_declareClass {options : Options} {name : Tree} {c : String}
    (named : name.name? = some c) (call : Tree) (r : Option Range) :
    (declareClass options name call r).misplaced none = call.misplaced none := by
  have hname : name.misplaced none = [] := by
    rw [name?] at named
    have hplain : name.shape.isClass = false ∧ name.shape.newCallee? = none ∧
        name.shape.target? = none ∧ name.shape.children = [] := by
      generalize name.shape = s at named
      cases s <;> first | exact ⟨rfl, rfl, rfl, rfl⟩ | cases named
    rw [misplaced_of_idle hplain.1 hplain.2.1 hplain.2.2.1, hplain.2.2.2, List.flatMap_nil]
  have hdeclarator : (Tree.node none (.declarator name (some call)) r).misplaced none =
      call.misplaced none := by
    rw [misplaced_of_idle rfl rfl rfl]
    simp [Shape.children, hname]
  rw [declareClass, permeable_misplaced.node rfl]
  simp [Shape.children, hdeclarator]

theorem misplacedInMember_defaultConstructor (hasBase : Bool) :
    (defaultConstructor hasBase).misplacedInMember = [] := by
  cases hasBase <;> decide +kernel

theorem misplaced_withConstructor (members : List Tree) (hasBase : Bool) :
    (withConstructor members hasBase).flatMap misplacedInMember =
      members.flatMap misplacedInMember := by
  rw [withConstructor]
  split
  · rfl
  · simp [misplacedInMember_defaultConstructor]

namespace Settles

theorem flatMap_eq_nil {c : String} {ts ts' : List Tree}
    (h : List.Forall₂ (Settles (some c)) ts ts') :
    ts'.flatMap (misplaced none) = [] ↔ ts.flatMap misplacedInMember = [] := by
  induction h with
  | nil => rfl
  | cons head _ ih =>
    rw [List.flatMap_cons, List.flatMap_cons, List.append_eq_nil_iff, List.append_eq_nil_iff]
    exact and_congr head ih

/-- The call that makes a class. -/
theorem createClass {options : Options} {heritage base : Option Tree} {c : String}
    {members properties : List Tree}
    (above : List.Forall₂ (Settles none) heritage.toList base.toList)
    (below : List.Forall₂ (Settles (some c)) (withConstructor members base.isSome) properties)
    (hasConstructor : Bool) (r : Option Range) :
    (createClass options properties hasConstructor base r).misplaced none = [] ↔
      heritage.toList.flatMap (misplaced none) ++ members.flatMap misplacedInMember = [] := by
  rw [permeable_misplaced.createClass, List.append_eq_nil_iff, List.append_eq_nil_iff,
    flatMap_eq_nil below, misplaced_withConstructor, Foresees.flatMap_eq_nil above, and_comm]

/-- A class that becomes other code. -/
theorem ofClass {t t' : Tree} {parts : ClassParts Tree} (h : t.shape.classParts? = some parts)
    (plain : t'.shape.isClass = false) (isCall : t'.shape.isCall = t.isBareClass)
    (hset : t'.settable true = false)
    (misplaced : t'.misplaced none = [] ↔ parts.heritage.toList.flatMap (misplaced none) ++
      parts.members.flatMap misplacedInMember = []) : Settles none t t' := by
  have hclass : t.shape.isCall = false ∧ t.settable true = false := by
    rw [settable_eq]
    generalize t.shape = s at h
    cases s <;> first | exact ⟨rfl, rfl⟩ | cases h
  refine ⟨?_, hset.trans hclass.2.symm, ?_⟩
  · rw [becomesCall_none, becomesCall_none, isBareClass_of_plain plain, isCall, hclass.1]
    simp
  · rw [misplaced, misplaced_class h]

/-- A program or a function in which temporaries are declared. -/
theorem declaring {t t' : Tree} (owner : t'.shape.ownsTemps = true) (h : Settles none t t')
    (temps : List Nat) : Settles none t (t'.declaring temps) := by
  have plain {u : Tree} (owner : u.shape.ownsTemps = true) : u.shape.isClass = false ∧
      u.shape.isCall = false ∧ u.settable true = false := by
    rw [settable_eq]
    generalize u.shape = s at owner
    cases s <;> first | exact ⟨rfl, rfl, rfl⟩ | cases owner
  obtain ⟨hclass, hcall, hset⟩ := plain owner
  obtain ⟨hclass', hcall', hset'⟩ := plain ((ownsTemps_declaring t' temps).trans owner)
  refine ⟨?_, ?_, ?_⟩
  · rw [← h.isCall, becomesCall_none, becomesCall_none, isBareClass_of_plain hclass,
      isBareClass_of_plain hclass', hcall, hcall']
  · rw [← h.settable, hset, hset']
  · rw [permeable_misplaced.declaring owner, h.misplaced]

end Settles

/-- A class is bare iff no member of it is marked as using `super`. -/
theorem isBareClass_eq {options : Options} {c : String} {a a' : Account}
    {name heritage : Option Tree} {members properties : List Tree} {o : Option NodeId}
    {r : Option Range} (h : Lowers options (some c) (a.withUsed false)
      (withConstructor members heritage.isSome) properties a') :
    (Tree.node o (.classExpr name heritage members) r).isBareClass = !a'.used := by
  rw [Bool.eq_iff_iff, Bool.not_eq_true', ← Bool.not_eq_true, h.used_iff]
  simp [isBareClass, Account.withUsed]

end Tree

open Declass.Tree in
/-- **What is foreseen of a tree is what becomes of it.** -/
theorem Lowers.settles {options : Options} {c : Option String} {a a' : Account} {ts ts' : List Tree}
    (h : Lowers options c a ts ts' a') : List.Forall₂ (Settles c) ts ts' := by
  have single {c : Option String} {t t' : Tree} (h : Settles c t t') :
      List.Forall₂ (Settles c) [t] [t'] := .cons h .nil
  induction h with
  | nil => exact .nil
  | cons _ _ ihHead ihTail => exact .cons (List.forall₂_cons.mp ihHead).1 ihTail
  | walk plain _ _ ih => exact single (Foresees.refill plain (expandedUse?_none _) (.inl rfl) ih)
  | @scope _ a' t cs owner _ ih =>
    have plain := isClass_of_ownsTemps owner
    refine single (.declaring ((ownsTemps_withChildren t cs).trans owner) ?_ _)
    exact Foresees.refill plain (expandedUse?_none t) (.inl rfl) ih
  | @classDecl _ _ _ _ name _ _ _ properties r _ named _ _ ihAbove ihBelow =>
    refine single (.ofClass rfl rfl rfl (settable_eq _ _) ?_)
    rw [misplaced_declareClass named]
    exact Settles.createClass ihAbove ihBelow _ _
  | classExprBound above below used ihAbove ihBelow =>
    rw [above.isSome_eq] at below
    refine single (.ofClass rfl rfl ?_ ?_ ?_)
    · rw [isBareClass_eq below, used]
      rfl
    · rw [settable_eq]
      exact settable_eq _ _
    · rw [permeable_misplaced.assignTemp]
      exact Settles.createClass ihAbove ihBelow _ _
  | classExprFree above below unused ihAbove ihBelow =>
    rw [above.isSome_eq] at below
    refine single (.ofClass rfl rfl ?_ (settable_eq _ _) (Settles.createClass ihAbove ihBelow _ _))
    rw [isBareClass_eq below, unused]
    rfl
  | @member _ _ _ _ t cs cs' kind legal expanded below ih =>
    have howner : (t.withChildren cs').shape.ownsTemps = true :=
      (ownsTemps_withChildren t cs').trans (ownsTemps_of_ofShape? legal)
    have hlength := below.length_eq.trans expanded.length_eq
    refine single ?_
    rw [Settles, permeable_misplaced.asProperty ((ofShape?_declaring _ _ _).trans legal),
      permeable_misplaced.declaring howner,
      permeable_misplaced.through _ (Shape.isScaffold_of_ownsTemps howner), Tree.withChildren,
      shape_node, Shape.children_refill hlength,
      Foresees.flatMap_eq_nil ih, misplacedInMember, legal]
    exact Foresees.flatMap_eq_nil expanded.foresees

/-! ### Programs -/

/-- **Lowered programs are well placed iff the source had no hazards.** If the source is well
placed, then in the result a call is constructed by `new`, or something is assigned to that is
neither a name nor a member, iff the source has a construct that is not `clear`. -/
theorem lowerProgram_wellPlaced {s : Store} {root lowered : NodeId} {options : Options}
    {state : LoweringState} {session : Session LoweringState} (closed : s.Closed root)
    (acyclic : s.Acyclic root)
    (placed : (s.tree s.size root).Everywhere fun t => t.wellPlaced = true)
    (run : (lowerProgram options root).runOn ⟨s, state⟩ = (.ok lowered, session)) :
    (session.store.tree s.size lowered).Everywhere (fun t => t.wellPlaced = true) ↔
      (s.tree s.size root).hazards = [] := by
  have hg : s.Grounded root := Store.grounded_iff.mpr ⟨closed, acyclic⟩
  have hspec := lowerProgram_spec hg options s.size le_rfl state
  change exec (lowerProgram options root) ⟨s, state⟩ = _ at run
  rw [run] at hspec
  obtain ⟨-, t', ⟨-, rfl⟩, hlowers⟩ := hspec
  have hfree := hlowers.classFree _ List.mem_cons_self
  have hsettles : Tree.Settles none _ _ := (List.forall₂_cons.mp hlowers.settles).1
  rw [← hfree.misplaced_eq_nil_iff, hsettles.misplaced, Tree.hazards, Tree.failures_clear placed]
  rfl

/-- `new class extends B { m() { (v) = super.y; function f() { (super.x) = v; } } }();` -/
def newHeirStore : Store where
  nodes := #[⟨.identifier "B", none⟩, ⟨.identifier "v", none⟩, ⟨.paren ⟨1⟩, none⟩,
    ⟨.superExpr, none⟩, ⟨.member ⟨3⟩ "y", none⟩, ⟨.binary ⟨2⟩ "=" ⟨4⟩, none⟩,
    ⟨.exprStatement ⟨5⟩, none⟩, ⟨.binding "f", none⟩, ⟨.superExpr, none⟩, ⟨.member ⟨8⟩ "x", none⟩,
    ⟨.paren ⟨9⟩, none⟩, ⟨.identifier "v", none⟩, ⟨.binary ⟨10⟩ "=" ⟨11⟩, none⟩,
    ⟨.exprStatement ⟨12⟩, none⟩, ⟨.block [⟨13⟩], none⟩, ⟨.functionDecl ⟨7⟩ [] ⟨14⟩, none⟩,
    ⟨.block [⟨6⟩, ⟨15⟩], none⟩, ⟨.method (.identifier "m") [] ⟨16⟩, none⟩,
    ⟨.classExpr none (some ⟨0⟩) [⟨17⟩], none⟩, ⟨.newExpr ⟨18⟩ [], none⟩,
    ⟨.exprStatement ⟨19⟩, none⟩, ⟨.program [⟨20⟩], none⟩]

/-- A class expression that uses `super` is put in parentheses, so it can be constructed; and a
`super` in a function stays what it is, so it can be assigned to. -/
theorem lowerProgram_wellPlaced_newHeir : ∃ lowered session,
    (lowerProgram {} ⟨21⟩).runOn ⟨newHeirStore, {}⟩ = (.ok lowered, session) ∧
      (session.store.tree 22 lowered).Everywhere fun t => t.wellPlaced = true := by
  have fits : newHeirStore.Fits 22 ⟨21⟩ := by decide +kernel
  obtain ⟨closed, acyclic⟩ := Store.grounded_iff.mp fits.grounded
  have placed : (newHeirStore.tree 22 ⟨21⟩).Everywhere fun t => t.wellPlaced = true := by
    decide +kernel
  have clear : (newHeirStore.tree 22 ⟨21⟩).hazards = [] := by decide +kernel
  have ok : ((lowerProgram {} ⟨21⟩).runOn ⟨newHeirStore, {}⟩).1.isOk := by decide +kernel
  generalize run : (lowerProgram {} ⟨21⟩).runOn ⟨newHeirStore, {}⟩ = out at ok ⊢
  obtain ⟨_ | lowered, session⟩ := out
  · cases ok
  · exact ⟨lowered, session, rfl, (lowerProgram_wellPlaced closed acyclic placed run).mpr clear⟩

/-- `new class {}();` -/
def newClassStore : Store where
  nodes := #[⟨.classExpr none none [], none⟩, ⟨.newExpr ⟨0⟩ [], none⟩, ⟨.exprStatement ⟨1⟩, none⟩,
    ⟨.program [⟨2⟩], none⟩]

/-- `class C { m() { (super.x) = v; } }` -/
def enclosedTargetStore : Store where
  nodes := #[⟨.binding "C", none⟩, ⟨.superExpr, none⟩, ⟨.member ⟨1⟩ "x", none⟩, ⟨.paren ⟨2⟩, none⟩,
    ⟨.identifier "v", none⟩, ⟨.binary ⟨3⟩ "=" ⟨4⟩, none⟩, ⟨.exprStatement ⟨5⟩, none⟩,
    ⟨.block [⟨6⟩], none⟩, ⟨.method (.identifier "m") [] ⟨7⟩, none⟩,
    ⟨.classDecl ⟨0⟩ none [⟨8⟩], none⟩, ⟨.program [⟨9⟩], none⟩]

/-- **Calls that come to stand where none is allowed:** one after `new`, and one that is assigned
to. -/
theorem lowerProgram_misplaced :
    let out := (lowerProgram {} ⟨3⟩).runOn ⟨newClassStore, {}⟩
    let out' := (lowerProgram {} ⟨10⟩).runOn ⟨enclosedTargetStore, {}⟩
    ((newClassStore.tree 4 ⟨3⟩).Everywhere (fun t => t.wellPlaced = true) ∧ out.1 = .ok ⟨18⟩ ∧
      ¬ (out.2.store.tree 4 ⟨18⟩).Everywhere fun t => t.wellPlaced = true) ∧
    ((enclosedTargetStore.tree 11 ⟨10⟩).Everywhere (fun t => t.wellPlaced = true) ∧
      out'.1 = .ok ⟨36⟩ ∧
      ¬ (out'.2.store.tree 11 ⟨36⟩).Everywhere fun t => t.wellPlaced = true) := by
  decide +kernel

end Declass
