import Declass.Proofs.Lowering

/-!
# Which programs can be lowered

Lowering looks at a whole program, the names of its classes left aside. It asks two things of a
class: its members are methods, getters and setters, and a declared class is named by an identifier.
Nothing else can stand in its way. The faults of a tree are here found in the store, at the class
that they stem from.

## Main definitions

* `Store.ReachesCode` — reachability that does not lead through the name of a class
* `Store.Legal`, `Store.Offends` — what is asked of a class, and the fault of a class that lacks it

## Main results

* `Store.Grounded.mem_faults_iff` — where the faults of a tree stem from
* `lowerProgram_isOk_iff` — lowering succeeds iff all classes are legal
-/

namespace Declass

open Edit Lowering

/-! ### The classes of a program -/

/-- The parts of a construct that are lowered. The name of a class is not one of them. -/
def Shape.codeChildren {α : Type} : Shape α → List α
  | .classDecl _ heritage members | .classExpr _ heritage members => heritage.toList ++ members
  | shape => shape.children

namespace Shape

variable {α : Type} {s : Shape α} {parts : ClassParts α}

theorem codeChildren_of_classParts? (h : s.classParts? = some parts) :
    s.codeChildren = parts.heritage.toList ++ parts.members := by
  cases s <;> cases h <;> rfl

theorem codeChildren_of_plain (h : s.classParts? = none) : s.codeChildren = s.children := by
  cases s <;> first | rfl | cases h

theorem codeChildren_subset (s : Shape α) : s.codeChildren ⊆ s.children := by
  cases h : s.classParts? with
  | none =>
    rw [codeChildren_of_plain h]
    exact List.Subset.refl _
  | some parts =>
    rw [codeChildren_of_classParts? h]
    exact (sublist_children_of_classParts? h).subset

end Shape

/-- The faults of a class, and those below it. -/
theorem Tree.mem_faults_of_classParts? {t : Tree} {parts : ClassParts Tree} {fault : Fault}
    (h : t.shape.classParts? = some parts) :
    fault ∈ t.faults ↔ ((∃ c ∈ parts.name, fault ∈ c.nameFaults) ∨
        ∃ c ∈ parts.members, fault ∈ c.memberFaults) ∨
      ∃ c ∈ parts.heritage.toList ++ parts.members, fault ∈ c.faults := by
  simp only [faults_of_class h, List.mem_append, List.mem_flatMap, Option.mem_toList,
    Option.mem_def, or_and_right, and_or_left, exists_or]
  rw [or_assoc, or_left_comm (a := ∃ a, parts.heritage = some a ∧ _)]

namespace Store

/-- `b` is reached from `a` on a path that does not lead through the name of a class. -/
def ReachesCode (s : Store) : NodeId → NodeId → Prop :=
  Relation.ReflTransGen fun a b => ∃ node, s.get? a = some node ∧ b ∈ node.shape.codeChildren

/-- A class with the given parts is reached from `root`. -/
def HasClass (s : Store) (root : NodeId) (parts : ClassParts NodeId) : Prop :=
  ∃ id node, s.ReachesCode root id ∧ s.get? id = some node ∧ node.shape.classParts? = some parts

/-- What lowering asks of a class. -/
structure Legal (s : Store) (parts : ClassParts NodeId) : Prop where
  /-- The name of a declared class is an identifier. -/
  name : ∀ id ∈ parts.name, ∃ node, s.get? id = some node ∧ node.shape.name?.isSome
  /-- The members are methods, getters and setters. -/
  members : ∀ id ∈ parts.members, ∃ node, s.get? id = some node ∧ node.shape.IsMember

/-- The faults of a class. -/
inductive Offends (s : Store) (parts : ClassParts NodeId) : Fault → Prop where
  | name {id : NodeId} {node : Node} (mem : id ∈ parts.name) (found : s.get? id = some node)
      (nameless : node.shape.name? = none) :
      s.Offends parts (.unexpectedNode "identifier" node.shape.kind)
  | member {id : NodeId} {node : Node} (mem : id ∈ parts.members) (found : s.get? id = some node)
      (illegal : ¬ node.shape.IsMember) :
      s.Offends parts (.unexpectedMember node.shape.kind node.range)

variable {s : Store} {root : NodeId} {node : Node} {parts : ClassParts NodeId} {fault : Fault}

theorem hasClass_iff (found : s.get? root = some node) :
    s.HasClass root parts ↔ node.shape.classParts? = some parts ∨
      ∃ c ∈ node.shape.codeChildren, s.HasClass c parts := by
  constructor
  · rintro ⟨id, node', hreach, found', hparts⟩
    rcases Relation.ReflTransGen.cases_head hreach with rfl | ⟨c, ⟨node'', found'', hc⟩, hreach⟩
    · obtain rfl := Option.some.inj (found.symm.trans found')
      exact .inl hparts
    · obtain rfl := Option.some.inj (found.symm.trans found'')
      exact .inr ⟨c, hc, id, node', hreach, found', hparts⟩
  · rintro (hparts | ⟨c, hc, id, node', hreach, found', hparts⟩)
    · exact ⟨root, node, .refl, found, hparts⟩
    · exact ⟨id, node', .head ⟨node, found, hc⟩ hreach, found', hparts⟩

theorem Grounded.reachesCode {a b : NodeId} (hg : s.Grounded a) (h : s.ReachesCode a b) :
    s.Grounded b := by
  induction h with
  | refl => exact hg
  | tail _ hstep ih =>
    obtain ⟨node, found, hc⟩ := hstep
    exact ih.of_mem_children found (node.shape.codeChildren_subset hc)

/-! ### Faults -/

/-- A class is legal iff it has no fault. -/
theorem Grounded.legal_iff (hg : s.Grounded root) (found : s.get? root = some node)
    (hparts : node.shape.classParts? = some parts) :
    s.Legal parts ↔ ∀ fault, ¬ s.Offends parts fault := by
  constructor
  · rintro ⟨hname, hmembers⟩ _ (⟨mem, found, hnone⟩ | ⟨mem, found, hnone⟩)
    · obtain ⟨node', found', hsome⟩ := hname _ mem
      obtain rfl := Option.some.inj (found.symm.trans found')
      simp [hnone] at hsome
    · obtain ⟨node', found', hmember⟩ := hmembers _ mem
      obtain rfl := Option.some.inj (found.symm.trans found')
      exact hnone hmember
  · intro h
    constructor
    · intro id mem
      obtain ⟨node', found', -⟩ :=
        (hg.of_mem_children found (Shape.mem_children_of_mem_name hparts mem)).exists_node
      refine ⟨node', found', Option.isSome_iff_ne_none.mpr fun hnone => ?_⟩
      exact h _ (.name mem found' hnone)
    · intro id mem
      obtain ⟨node', found', -⟩ :=
        (hg.of_mem_children found (Shape.mem_children_of_mem_members hparts mem)).exists_node
      exact ⟨node', found', by_contra fun hnone => h _ (.member mem found' hnone)⟩

variable {n : Nat}

theorem Grounded.mem_nameFaults_iff (hg : s.Grounded root) (found : s.get? root = some node) :
    fault ∈ (s.tree n root).nameFaults ↔
      node.shape.name? = none ∧ fault = .unexpectedNode "identifier" node.shape.kind := by
  rw [Tree.nameFaults, hg.name?_tree found, hg.tree_eq found, Tree.shape_node, Shape.kind_map]
  cases node.shape.name? <;> simp

theorem Grounded.mem_memberFaults_iff (hg : s.Grounded root) (found : s.get? root = some node) :
    fault ∈ (s.tree n root).memberFaults ↔ ¬ node.shape.IsMember ∧
      fault = .unexpectedMember node.shape.kind node.range := by
  rw [Tree.memberFaults, hg.tree_eq found, Tree.shape_node, Tree.range_node, Shape.kind_map,
    MemberKind.ofShape?_map, ← MemberKind.ofShape?_eq_none_iff]
  cases MemberKind.ofShape? node.shape <;> simp

/-- The faults that a class itself has, found in its tree. -/
theorem Grounded.offends_iff (hg : s.Grounded root) (found : s.get? root = some node)
    (hparts : node.shape.classParts? = some parts) :
    s.Offends parts fault ↔ (∃ c ∈ parts.name, fault ∈ (s.tree n c).nameFaults) ∨
      ∃ c ∈ parts.members, fault ∈ (s.tree n c).memberFaults := by
  constructor
  · rintro (⟨mem, found', hnone⟩ | ⟨mem, found', hnone⟩)
    · have hc := hg.of_mem_children found (Shape.mem_children_of_mem_name hparts mem)
      exact .inl ⟨_, mem, (hc.mem_nameFaults_iff found').mpr ⟨hnone, rfl⟩⟩
    · have hc := hg.of_mem_children found (Shape.mem_children_of_mem_members hparts mem)
      exact .inr ⟨_, mem, (hc.mem_memberFaults_iff found').mpr ⟨hnone, rfl⟩⟩
  · rintro (⟨c, mem, hfault⟩ | ⟨c, mem, hfault⟩)
    · have hc := hg.of_mem_children found (Shape.mem_children_of_mem_name hparts mem)
      obtain ⟨node', found', -⟩ := hc.exists_node
      obtain ⟨hnone, rfl⟩ := (hc.mem_nameFaults_iff found').mp hfault
      exact .name mem found' hnone
    · have hc := hg.of_mem_children found (Shape.mem_children_of_mem_members hparts mem)
      obtain ⟨node', found', -⟩ := hc.exists_node
      obtain ⟨hnone, rfl⟩ := (hc.mem_memberFaults_iff found').mp hfault
      exact .member mem found' hnone

/-- **A fault of a tree stems from a class in it,** and every class that is reached otherwise than
through the name of a class has its faults there. -/
theorem Grounded.mem_faults_iff (hg : s.Grounded root) :
    fault ∈ (s.tree n root).faults ↔ ∃ parts, s.HasClass root parts ∧ s.Offends parts fault := by
  induction hg with
  | @node root node found below ih =>
    have hg : s.Grounded root := .node found below
    -- What the children contribute is known by induction; it is left to say what the root does.
    have hbelow : (∃ parts, (∃ c ∈ node.shape.codeChildren, s.HasClass c parts) ∧
        s.Offends parts fault) ↔ ∃ c ∈ node.shape.codeChildren, fault ∈ (s.tree n c).faults := by
      constructor
      · rintro ⟨parts, ⟨c, hc, hclass⟩, hoffends⟩
        exact ⟨c, hc, (ih c (node.shape.codeChildren_subset hc)).mpr ⟨parts, hclass, hoffends⟩⟩
      · rintro ⟨c, hc, hfault⟩
        obtain ⟨parts, hclass, hoffends⟩ := (ih c (node.shape.codeChildren_subset hc)).mp hfault
        exact ⟨parts, ⟨c, hc, hclass⟩, hoffends⟩
    simp only [hasClass_iff found, or_and_right, exists_or, hbelow]
    rw [hg.tree_eq found]
    cases hparts : node.shape.classParts? with
    | none =>
      rw [Tree.faults_of_not_isClass (by
        rw [Tree.shape_node, Shape.isClass_map, Shape.isClass_of_classParts?_eq_none hparts])]
      simp [Shape.codeChildren_of_plain hparts]
    | some parts =>
      have hmap : (Tree.node (originOf n root node.shape) (node.shape.map (s.tree n))
          node.range).shape.classParts? = some (parts.map (s.tree n)) := by
        rw [Tree.shape_node, Shape.classParts?_map, hparts]
        rfl
      rw [Tree.mem_faults_of_classParts? hmap]
      have hcode : (parts.map (s.tree n)).heritage.toList ++ (parts.map (s.tree n)).members =
          node.shape.codeChildren.map (s.tree n) := by
        rw [Shape.codeChildren_of_classParts? hparts, List.map_append, ← Option.toList_map]
        rfl
      rw [hcode]
      simp [hg.offends_iff (n := n) found hparts, ClassParts.map]

end Store

/-! ### Programs -/

/-- **Lowering succeeds iff all classes of the program are legal.** Classes that are reached only
through the name of a class do not count. If lowering fails, then on one of the classes, and the
fault says what is wrong with it: the kind and the range of a member that classes do not have, or
the kind of a name that is no identifier. -/
theorem lowerProgram_isOk_iff {s : Store} {root : NodeId} (closed : s.Closed root)
    (acyclic : s.Acyclic root) (options : Options) (state : LoweringState) :
    let result := ((lowerProgram options root).runOn ⟨s, state⟩).1
    (result.isOk = true ↔ ∀ parts, s.HasClass root parts → s.Legal parts) ∧
      ∀ fault, result = .error fault → ∃ parts, s.HasClass root parts ∧ s.Offends parts fault := by
  intro result
  have hg : s.Grounded root := Store.grounded_iff.mpr ⟨closed, acyclic⟩
  have hlegal : (s.tree 0 root).faults = [] ↔ ∀ parts, s.HasClass root parts → s.Legal parts := by
    rw [List.eq_nil_iff_forall_not_mem]
    simp only [hg.mem_faults_iff, not_exists, not_and]
    rw [forall_comm]
    refine forall_congr' fun parts => ?_
    rw [forall_comm]
    refine forall_congr' fun hclass => ?_
    obtain ⟨id, node, hreach, found, hparts⟩ := hclass
    exact (Store.Grounded.legal_iff (hg.reachesCode hreach) found hparts).symm
  have hspec := lowerProgram_spec hg options 0 (Nat.zero_le _) state
  have hresult : result = (exec (lowerProgram options root) ⟨s, state⟩).1 := rfl
  generalize exec (lowerProgram options root) ⟨s, state⟩ = out at hspec hresult
  rw [hresult, ← hlegal]
  obtain ⟨fault | lowered, session⟩ := out
  · obtain ⟨-, hfault⟩ := hspec
    have hmem := List.mem_of_mem_head? hfault
    refine ⟨iff_of_false Bool.false_ne_true (List.ne_nil_of_mem hmem), ?_⟩
    rintro _ ⟨⟩
    exact hg.mem_faults_iff.mp hmem
  · obtain ⟨-, _, -, hlowers⟩ := hspec
    have hnone := hlowers.faults_eq_nil
    rw [List.flatMap_singleton] at hnone
    exact ⟨iff_of_true rfl hnone, fun _ h => nomatch h⟩

/-- Two programs with the illegal class `class { p: v }`. In the first it is the name of a class
with a setter, in the second the heritage of one. -/
def misnamedStore : Store where
  nodes := #[⟨.identifier "v", none⟩, ⟨.property (.identifier "p") ⟨0⟩, none⟩,
    ⟨.classExpr none none [⟨1⟩], none⟩, ⟨.classExpr (some ⟨2⟩) none [⟨12⟩], none⟩,
    ⟨.exprStatement ⟨3⟩, none⟩, ⟨.program [⟨4⟩], none⟩, ⟨.classExpr none (some ⟨2⟩) [⟨12⟩], none⟩,
    ⟨.exprStatement ⟨6⟩, none⟩, ⟨.program [⟨7⟩], none⟩, ⟨.binding "w", none⟩,
    ⟨.parameter ⟨9⟩ none false, none⟩, ⟨.block [], none⟩,
    ⟨.setter (.identifier "q") ⟨10⟩ ⟨11⟩, none⟩]

/-- A class in the name of a class is not looked at, one in its heritage is. -/
theorem lowerProgram_isOk_iff_misnamed :
    (misnamedStore.Closed ⟨5⟩ ∧ misnamedStore.Acyclic ⟨5⟩ ∧
      misnamedStore.HasClass ⟨5⟩ ⟨none, none, [⟨12⟩]⟩ ∧
      ∀ parts, misnamedStore.HasClass ⟨5⟩ parts → misnamedStore.Legal parts) ∧
    (misnamedStore.Closed ⟨8⟩ ∧ misnamedStore.Acyclic ⟨8⟩ ∧ ∃ fault,
      ((lowerProgram {} ⟨8⟩).runOn ⟨misnamedStore, {}⟩).1 = .error fault ∧
        ∃ parts, misnamedStore.HasClass ⟨8⟩ parts ∧ misnamedStore.Offends parts fault) := by
  have named : misnamedStore.Fits 6 ⟨5⟩ := by decide +kernel
  have inherited : misnamedStore.Fits 6 ⟨8⟩ := by decide +kernel
  obtain ⟨closed, acyclic⟩ := Store.grounded_iff.mp named.grounded
  obtain ⟨closed', acyclic'⟩ := Store.grounded_iff.mp inherited.grounded
  have ok : ((lowerProgram {} ⟨5⟩).runOn ⟨misnamedStore, {}⟩).1.isOk = true := by decide +kernel
  have failed : ((lowerProgram {} ⟨8⟩).runOn ⟨misnamedStore, {}⟩).1.isOk = false := by
    decide +kernel
  have reached : misnamedStore.ReachesCode ⟨5⟩ ⟨3⟩ :=
    .head ⟨_, rfl, List.mem_cons_self⟩ (.single ⟨_, rfl, List.mem_cons_self⟩)
  refine ⟨⟨closed, acyclic, ⟨⟨3⟩, _, reached, rfl, rfl⟩,
    (lowerProgram_isOk_iff closed acyclic {} {}).1.mp ok⟩,
    closed', acyclic', ?_⟩
  have hfault := (lowerProgram_isOk_iff closed' acyclic' {} {}).2
  generalize ((lowerProgram {} ⟨8⟩).runOn ⟨misnamedStore, {}⟩).1 = result at failed hfault ⊢
  obtain fault | _ := result
  · exact ⟨fault, rfl, hfault fault rfl⟩
  · cases failed

end Declass
