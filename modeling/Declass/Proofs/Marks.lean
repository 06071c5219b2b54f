import Declass.Proofs.ClassFree
import Declass.Proofs.Generated
import Declass.Proofs.Placement

/-!
# Where names stand

A name stands in a tree where it is declared or used. Some of these places are marked further: that
of a variable or class that is declared, and that of a name that is assigned to. This module says
what marks the code has that the lowering puts together, and which programs and functions are in it.

## Main definitions

* `Tree.sweep` — what is found at the constructs of a tree
* `Mark`, `Tree.marks` — names with what becomes of them
* `Tree.owners`, `Tree.openingNames` — programs and functions, and the variables declared at the top
  of their bodies
* `Tree.SameNames` — trees that are the same name, or none

## Main results

* `Tree.marks_declaring`, `Tree.marks_createClass` and others — the marks of lowered code
* `Lowers.sameNames` — names stay where they are
* `Tree.countP_owners_add_le` — what is declared at the top of a body is declared
-/

namespace Declass

variable {γ : Type}

/-! ### Sweeps -/

namespace Shape

variable {α β : Type}

/-- The children that the lowering keeps: all but the name of a class expression. -/
def kept : Shape α → List α
  | .classExpr _ heritage members => heritage.toList ++ members
  | shape => shape.children

theorem kept_eq {s : Shape α} (h : s.isClass = false) : s.kept = s.children := by
  cases s <;> first | rfl | cases h

theorem kept_map (f : α → β) (s : Shape α) : (s.map f).kept = s.kept.map f := by
  cases s with
  | classDecl name heritage members => exact children_map f (.classDecl name heritage members)
  | classExpr _ heritage => cases heritage <;> simp [map, kept]
  | _ => rw [kept_eq rfl, kept_eq rfl, children_map]

theorem kept_subset (s : Shape α) : s.kept ⊆ s.children := by
  cases s with
  | classExpr => exact List.subset_append_right _ _
  | _ => exact List.Subset.refl _

end Shape

namespace Tree

/-- What `own` finds at each construct of a tree, from top to bottom. The names of class expressions
are left out. -/
def sweep (own : Tree → List γ) : Tree → List γ :=
  para fun origin shape range =>
    own (.node origin (shape.map Prod.fst) range) ++ shape.kept.flatMap Prod.snd

variable {own : Tree → List γ}

theorem sweep_of (t : Tree) : sweep own t = own t ++ t.shape.kept.flatMap (sweep own) := by
  obtain ⟨o, s, r⟩ := t
  have hself : (s.map fun c => (c, sweep own c)).map Prod.fst = s := by
    rw [Shape.map_map]
    exact Shape.map_id s
  rw [sweep, para_node, ← sweep, hself, Shape.kept_map, List.flatMap_map]
  rfl

theorem sweep_of_plain {t : Tree} (h : t.shape.isClass = false) :
    sweep own t = own t ++ t.shape.children.flatMap (sweep own) := by
  rw [sweep_of, Shape.kept_eq h]

theorem sweep_of_isLeaf {t : Tree} (h : t.shape.isLeaf = true) : sweep own t = own t := by
  rw [sweep_of_plain (Shape.isClass_of_isLeaf h), Shape.children_eq_nil_of_isLeaf h,
    List.flatMap_nil, List.append_nil]

theorem flatMap_children_subset {t : Tree} (h : t.shape.isClass = false) :
    t.shape.children.flatMap (sweep own) ⊆ sweep own t := by
  rw [sweep_of_plain h]
  exact List.subset_append_right _ _

theorem sweep_subset_of_mem_kept {t c : Tree} (hc : c ∈ t.shape.kept) :
    sweep own c ⊆ sweep own t := by
  rw [sweep_of t]
  exact fun _ hx => List.mem_append_right _ (List.mem_flatMap.mpr ⟨c, hc, hx⟩)

theorem sweep_subset_of_mem {t c : Tree} (h : t.shape.isClass = false) (hc : c ∈ t.shape.children) :
    sweep own c ⊆ sweep own t :=
  sweep_subset_of_mem_kept (by rwa [Shape.kept_eq h])

theorem isGlue_of_isJoint {t : Tree} (h : t.isJoint = true) : t.shape.isGlue = true := by
  rw [isJoint] at h
  generalize t.shape = s at h
  cases s <;> first | rfl | cases h

theorem passes_sweep (h : ∀ t : Tree, t.isJoint = true → own t = []) : Passes (sweep own) where
  joint t ht := by
    rw [sweep_of_plain (Shape.isClass_of_isGlue (isGlue_of_isJoint ht)), h t ht, List.nil_append]

theorem sweep_of_superRole (h : ∀ t : Tree, t.isUseForm = true → own t = []) {t : Tree}
    {use : SuperUse Tree} (role : t.superRole = .use use) :
    sweep own t = use.operands.flatMap (sweep own) := by
  refine flatMap_operands_of_useForm (fun t ht => ?_) role
  rw [sweep_of_plain (Shape.isClass_of_isGlue (isGlue_of_isUseForm ht)), h t ht, List.nil_append]

/-! ### Marks -/

/-- The name that the tree is, in parentheses or not. -/
def bareName? : Tree → Option String :=
  para fun _ shape _ => match shape with
    | .identifier name => some name
    | .paren expression => expression.2
    | _ => none

theorem bareName?_of (t : Tree) : t.bareName? = match t.shape with
    | .identifier name => some name
    | .paren expression => expression.bareName?
    | _ => none := by
  obtain ⟨o, s, r⟩ := t
  rw [bareName?, para_node]
  cases s <;> rfl

/-- The name that the tree declares for a variable or a class. -/
def declaredName? (t : Tree) : Option String :=
  match t.shape with
  | .declarator name _ | .classDecl name _ _ => name.name?
  | _ => none

/-- The name that the tree assigns to. -/
def assignedName? (t : Tree) : Option String :=
  t.shape.target?.bind bareName?

end Tree

/-- A name at a place, with what becomes of it there. -/
inductive Mark where
  /-- It is declared or used. -/
  | occurrence (name : String)
  /-- It is declared for a variable or a class. -/
  | declaration (name : String)
  /-- It is assigned to. -/
  | assignment (name : String)
  deriving DecidableEq

/-- The name that a mark is about. -/
def Mark.name : Mark → String
  | .occurrence name | .declaration name | .assignment name => name

theorem Shape.eq_of_target? {α : Type} {s : Shape α} {c : α} (h : s.target? = some c) :
    (∃ operator right, s = .binary c operator right) ∨ ∃ operator, s = .unary operator c := by
  cases s with
  | binary | unary =>
    rw [target?] at h
    split at h <;> cases h
    simp
  | _ => cases h

/-- The body of a function. -/
def Shape.body? {α : Type} : Shape α → Option α
  | .functionDecl _ _ body | .functionExpr _ _ body | .arrow _ body | .method _ _ body
  | .getter _ body | .setter _ _ body => some body
  | _ => none

/-- The body of a function is the last of its children. -/
theorem Shape.exists_body {α : Type} {s : Shape α} (h : s.isFunctionLike = true) :
    ∃ init body, s.body? = some body ∧ s.children = init ++ [body] ∧
      ∀ f : α → α, (s.mapBody f).body? = some (f body) ∧
        (s.mapBody f).children = init ++ [f body] := by
  cases s with
  | functionDecl name parameters body =>
    exact ⟨name :: parameters, body, rfl, rfl, fun _ => ⟨rfl, rfl⟩⟩
  | functionExpr name parameters body =>
    exact ⟨name.toList ++ parameters, body, rfl, by simp [children],
      fun _ => ⟨rfl, by simp [mapBody, children]⟩⟩
  | arrow parameters body | method _ parameters body =>
    exact ⟨parameters, body, rfl, rfl, fun _ => ⟨rfl, rfl⟩⟩
  | getter _ body => exact ⟨[], body, rfl, rfl, fun _ => ⟨rfl, rfl⟩⟩
  | setter _ incoming body => exact ⟨[incoming], body, rfl, rfl, fun _ => ⟨rfl, rfl⟩⟩
  | _ => cases h

/-- The children of a function that stand before its body. -/
def Shape.head {α : Type} : Shape α → List α
  | .functionDecl name parameters _ => name :: parameters
  | .functionExpr name parameters _ => name.toList ++ parameters
  | .arrow parameters _ | .method _ parameters _ => parameters
  | .setter _ incoming _ => [incoming]
  | _ => []

theorem Shape.children_eq_head {α : Type} {s : Shape α} {body : α} (h : s.body? = some body) :
    s.children = s.head ++ [body] := by
  cases s <;> cases h <;> simp [children, head]

theorem Shape.head_mapBody {α : Type} (f : α → α) (s : Shape α) : (s.mapBody f).head = s.head := by
  cases s <;> rfl

/-- The constructs that are no marks themselves. -/
def Shape.isUnmarked {α : Type} : Shape α → Bool
  | .identifier _ | .binding _ | .declarator .. | .classDecl .. | .classExpr .. | .binary ..
  | .unary .. => false
  | _ => true

theorem Shape.isClass_of_isUnmarked {α : Type} {s : Shape α} (h : s.isUnmarked = true) :
    s.isClass = false := by
  cases s <;> first | rfl | cases h

/-- The constructs that are no names whatever they are made of. -/
def Shape.isNameless {α : Type} : Shape α → Bool
  | .identifier _ | .binding _ | .paren _ => false
  | _ => true

namespace Tree

/-- The marks at the root of a tree. -/
def ownMarks (t : Tree) : List Mark :=
  t.name?.toList.map .occurrence ++
    (t.declaredName?.toList.map .declaration ++ t.assignedName?.toList.map .assignment)

/-- The marks in a tree. -/
def marks : Tree → List Mark :=
  sweep ownMarks

theorem marks_of (t : Tree) : t.marks = t.ownMarks ++ t.shape.kept.flatMap marks :=
  sweep_of t

/-- A construct has its own marks before those of its parts. -/
theorem marks_of_plain {t : Tree} (h : t.shape.isClass = false) :
    t.marks = t.ownMarks ++ t.shape.children.flatMap marks :=
  sweep_of_plain h

theorem ownMarks_of_isUnmarked {t : Tree} (h : t.shape.isUnmarked = true) : t.ownMarks = [] := by
  rw [ownMarks, name?, declaredName?, assignedName?]
  generalize t.shape = s at h
  cases s <;> first | rfl | cases h

/-- Generated code and uses of `super` are marked only where they assign to a name. -/
theorem ownMarks_of_isGlue {t : Tree} (h : t.shape.isGlue = true)
    (htarget : ∀ c ∈ t.shape.target?, c.bareName? = none) : t.ownMarks = [] := by
  have hdeclared : t.declaredName? = none := by
    rw [declaredName?]
    generalize t.shape = s at h
    cases s <;> first | rfl | cases h
  have hassigned : t.assignedName? = none := by
    rw [assignedName?, Option.bind_eq_none_iff]
    exact htarget
  rw [ownMarks, name?_of_isGlue h, hdeclared, hassigned]
  rfl

theorem passes_marks : Passes marks := by
  refine passes_sweep fun t h => ownMarks_of_isGlue (isGlue_of_isJoint h) fun c hc => ?_
  rw [isJoint] at h
  rw [bareName?_of]
  rcases Shape.eq_of_target? hc with ⟨operator, right, hs⟩ | ⟨operator, hs⟩ <;> rw [hs] at h <;>
    cases hc : c.shape <;> simp_all

/-- A use has the marks of its operands. -/
theorem marks_of_superRole {t : Tree} {use : SuperUse Tree} (role : t.superRole = .use use) :
    t.marks = use.operands.flatMap marks := by
  refine sweep_of_superRole
    (fun t h => ownMarks_of_isGlue (isGlue_of_isUseForm h) fun c hc => ?_) role
  rw [isUseForm] at h
  rw [bareName?_of]
  rcases Shape.eq_of_target? hc with ⟨operator, right, hs⟩ | ⟨operator, hs⟩ <;> rw [hs] at h <;>
    cases hc : c.shape <;> simp_all [Shape.isAccess]

/-! ### Marks of generated code -/

/-- What has no marks of its own has those of its parts. -/
theorem marks_of_isUnmarked {t : Tree} (h : t.shape.isUnmarked = true) :
    t.marks = t.shape.children.flatMap marks := by
  rw [marks_of_plain (Shape.isClass_of_isUnmarked h), ownMarks_of_isUnmarked h, List.nil_append]

theorem marks_node {s : Shape Tree} (h : s.isUnmarked = true) (o : Option NodeId)
    (r : Option Range) : (node o s r).marks = s.children.flatMap marks :=
  marks_of_isUnmarked (t := .node o s r) h

/-- A name has the one mark of its occurrence. -/
theorem marks_of_name? {t : Tree} {name : String} (h : t.name? = some name) :
    t.marks = [.occurrence name] := by
  obtain ⟨o, s, r⟩ := t
  cases s with
  | binding | identifier =>
    cases h
    rw [marks_of]
    rfl
  | _ => cases h

theorem marks_ident (name : String) : (ident name).marks = [.occurrence name] :=
  marks_of_name? rfl

/-- The pieces that uses are made of have marks of known names. -/
theorem marks_pieces {names : String → Prop} {pieces : List Tree}
    (h : ∀ leaf ∈ pieces, leaf.IsPiece names) :
    ∀ mark ∈ pieces.flatMap marks, ∃ name, mark = .occurrence name ∧ names name := by
  intro mark hmark
  obtain ⟨leaf, hleaf, hmark⟩ := List.mem_flatMap.mp hmark
  obtain ⟨isLeaf, -, hname⟩ := h leaf hleaf
  have hmarks : leaf.marks = leaf.name?.toList.map .occurrence := by
    rw [marks, sweep_of_isLeaf isLeaf, ownMarks, declaredName?, assignedName?]
    generalize leaf.shape = s at isLeaf
    cases s <;> first | exact List.append_nil _ | cases isLeaf
  rw [hmarks, List.mem_map] at hmark
  obtain ⟨name, hmem, rfl⟩ := hmark
  exact ⟨name, rfl, hname name (Option.mem_toList.mp hmem)⟩

theorem marks_assign (number : Nat) (value : Tree) :
    (assign (temp number) value).marks =
      .assignment (Temps.name number) :: .occurrence (Temps.name number) :: value.marks := by
  have hown : (assign (temp number) value).ownMarks = [.assignment (Temps.name number)] := by
    simp [ownMarks, assign, gen, name?, declaredName?, assignedName?, Shape.target?, bareName?_of,
      temp, ident, assignmentOperators]
  rw [marks_of_plain rfl, hown]
  simp [assign, gen, Shape.children, temp, marks_ident]

/-- The marks of the call that creates a class. -/
theorem marks_createClass (options : Options) (properties : List Tree) (hasConstructor : Bool)
    (base : Option Tree) (r : Option Range) :
    (createClass options properties hasConstructor base r).marks =
      .occurrence options.runtimeName ::
        (properties.flatMap marks ++ base.toList.flatMap marks) := by
  have hcallee : (helper options.runtimeName .createClass).marks =
      [.occurrence options.runtimeName] := by
    rw [helper, gen, marks_node rfl]
    simp [Shape.children, marks_ident]
  have hliteral (value : Literal) : (gen (.literal value)).marks = [] := marks_node rfl none none
  have hobject : (gen (.object properties)).marks = properties.flatMap marks :=
    marks_node rfl none none
  rw [createClass, marks_node rfl]
  cases base <;> simp [Shape.children, hcallee, hobject, hliteral, boolean]

/-- The marks of the declaration of a class. -/
theorem marks_declareClass (options : Options) {name : Tree} {c : String}
    (named : name.name? = some c) (call : Tree) (r : Option Range) :
    (declareClass options name call r).marks = .declaration c :: .occurrence c :: call.marks := by
  have hown : (node none (.declarator name (some call)) r).ownMarks = [.declaration c] := by
    simp [ownMarks, name?, declaredName?, assignedName?, Shape.target?, ← named]
  rw [declareClass, marks_node rfl, Shape.children, List.flatMap_singleton,
    marks_of_plain rfl, hown]
  simp [Shape.children, marks_of_name? named]

/-- The marks of a class declaration. -/
theorem marks_classDecl (o : Option NodeId) (name : Tree) (heritage : Option Tree)
    (members : List Tree) (r : Option Range) :
    (node o (.classDecl name heritage members) r).marks =
      (name.name?.toList.map .declaration ++ name.marks) ++
        (heritage.toList.flatMap marks ++ members.flatMap marks) := by
  rw [marks_of]
  simp [ownMarks, name?, declaredName?, assignedName?, Shape.target?, Shape.kept, Shape.children]

/-- The marks of a class expression, whose own name has none. -/
theorem marks_classExpr (o : Option NodeId) (name heritage : Option Tree) (members : List Tree)
    (r : Option Range) : (node o (.classExpr name heritage members) r).marks =
      heritage.toList.flatMap marks ++ members.flatMap marks := by
  rw [marks_of]
  simp [ownMarks, name?, declaredName?, assignedName?, Shape.target?, Shape.kept]

/-- The marks of an assignment to a temporary. -/
theorem marks_assignTemp (number : Nat) (value : Tree) (r : Option Range) :
    (node none (.paren (.assign (.temp number) value)) r).marks =
      .assignment (Temps.name number) :: .occurrence (Temps.name number) :: value.marks := by
  rw [marks_node rfl]
  simp [Shape.children, marks_assign]

/-- A default constructor has one name in it, and it is the same for all classes. -/
theorem marks_withConstructor (members : List Tree) (hasBase : Bool) :
    ∃ extra : List Mark, (∀ mark ∈ extra, mark = .occurrence "args") ∧
      (withConstructor members hasBase).flatMap marks = members.flatMap marks ++ extra := by
  rw [withConstructor]
  split
  · exact ⟨[], List.forall_mem_nil _, (List.append_nil _).symm⟩
  · refine ⟨(defaultConstructor hasBase).marks, ?_, by simp⟩
    cases hasBase <;> decide +kernel

/-! ### Marks of programs and functions -/

/-- The marks of declarations of temporaries. -/
theorem marks_declareTemps (temps : List Nat) :
    (declareTemps temps).marks =
      temps.flatMap fun n => [.declaration (Temps.name n), .occurrence (Temps.name n)] := by
  have hdeclarator (n : Nat) : (gen (.declarator (gen (.binding (Temps.name n))) none)).marks =
      [.declaration (Temps.name n), .occurrence (Temps.name n)] := by
    rw [marks_of_plain rfl]
    simp [gen, ownMarks, name?, declaredName?, assignedName?, Shape.target?, Shape.children,
      marks_of_name? (t := node none (.binding (Temps.name n)) none) rfl]
  rw [declareTemps, gen, marks_node rfl]
  simp only [Shape.children, List.flatMap_map, hdeclarator]

theorem marks_prepend (declaration body : Tree) :
    (prepend declaration body).marks = declaration.marks ++ body.marks := by
  have hstatements : body.statements.flatMap marks = body.marks := by
    rw [statements]
    split
    case h_1 hblock =>
      rw [marks_of_isUnmarked (t := body) (by rw [hblock]; rfl), hblock, Shape.children]
    case h_2 =>
      rw [List.flatMap_singleton, marks_node rfl]
      exact List.flatMap_singleton _ _
  rw [prepend, marks_node rfl]
  simp [Shape.children, hstatements]

theorem isUnmarked_of_ownsTemps {s : Shape Tree} (h : s.ownsTemps = true) :
    s.isUnmarked = true := by
  cases s <;> first | rfl | cases h

/-- A program has its statements, and a function has a body. -/
theorem ownsTemps_cases {s : Shape Tree} (h : s.ownsTemps = true) :
    (∃ statements, s = .program statements) ∨
      s.isFunctionLike = true ∧
        ∀ declaration, s.declaring declaration = s.mapBody (prepend declaration) := by
  cases s with
  | program statements => exact .inl ⟨statements, rfl⟩
  | functionDecl | functionExpr | arrow | method | getter | setter => exact .inr ⟨rfl, fun _ => rfl⟩
  | _ => cases h

/-- The declaration of temporaries adds its marks. -/
theorem marks_declaring {t : Tree} (owner : t.shape.ownsTemps = true) (temps : List Nat) :
    (t.declaring temps).marks.Perm ((declareTemps temps).marks ++ t.marks) := by
  have howner := (ownsTemps_declaring t temps).trans owner
  rw [marks_of_isUnmarked (isUnmarked_of_ownsTemps howner),
    marks_of_isUnmarked (t := t) (isUnmarked_of_ownsTemps owner), declaring]
  split
  case isTrue hnil => rw [hnil, marks_declareTemps, List.flatMap_nil, List.nil_append]
  case isFalse =>
    rw [shape_node]
    rcases ownsTemps_cases owner with ⟨statements, hs⟩ | ⟨hfunction, hdeclaring⟩
    · rw [hs, Shape.declaring, Shape.children, Shape.children, List.flatMap_cons]
    · obtain ⟨init, body, -, hchildren, hmap⟩ := Shape.exists_body hfunction
      rw [hdeclaring, (hmap _).2, hchildren, List.flatMap_append, List.flatMap_append,
        List.flatMap_singleton, List.flatMap_singleton, marks_prepend]
      exact List.perm_append_comm_assoc _ _ _

/-- The marks of a member and of the property that it becomes. -/
theorem marks_asProperty {t : Tree} {kind : MemberKind}
    (legal : MemberKind.ofShape? t.shape = some kind) : (t.asProperty kind).marks = t.marks := by
  rw [asProperty]
  split
  case isFalse => rfl
  case isTrue hkind =>
    obtain ⟨o, s, r⟩ := t
    obtain ⟨name, parameters, body, rfl : s = _⟩ := isConstructor_of_ofShape? (hkind ▸ legal)
    rw [constructorProperty, shape_node, marks_node rfl]
    rw [Shape.children, List.flatMap_singleton, marks_node rfl, marks_node rfl]
    rfl

/-! ### Occurrences -/

theorem occurrence_of_name? {t : Tree} {name : String} (h : t.name? = some name) :
    .occurrence name ∈ t.marks := by
  rw [marks_of_name? h]
  exact List.mem_cons_self

theorem occurrence_of_bareName? {t : Tree} {name : String} (h : t.bareName? = some name) :
    .occurrence name ∈ t.marks := by
  induction t with
  | node o s r ih =>
    rw [bareName?_of, shape_node] at h
    cases s with
    | identifier => exact occurrence_of_name? h
    | paren expression =>
      have hc : expression ∈ Shape.children (.paren expression) := List.mem_cons_self
      exact sweep_subset_of_mem rfl hc (ih expression hc h)
    | _ => cases h

/-- A name that is declared or assigned to occurs as well. -/
theorem occurrence_of_mem_ownMarks {t : Tree} {mark : Mark} (h : mark ∈ t.ownMarks) :
    .occurrence mark.name ∈ t.marks := by
  simp only [ownMarks, List.mem_append, List.mem_map, Option.mem_toList] at h
  rcases h with ⟨name, hname, rfl⟩ | ⟨name, hname, rfl⟩ | ⟨name, hname, rfl⟩
  · exact occurrence_of_name? hname
  · obtain ⟨o, s, r⟩ := t
    cases s with
    | declarator binding | classDecl binding =>
      exact sweep_subset_of_mem_kept (c := binding) List.mem_cons_self (occurrence_of_name? hname)
    | _ => cases hname
  · obtain ⟨target, htarget, hname⟩ := Option.bind_eq_some_iff.mp hname
    refine sweep_subset_of_mem ?_ (Shape.mem_children_of_target? htarget)
      (occurrence_of_bareName? hname)
    rcases Shape.eq_of_target? htarget with ⟨operator, right, hs⟩ | ⟨operator, hs⟩ <;>
      rw [hs] <;> rfl

/-- Whatever is marked with a name has the name in it. -/
theorem occurrence_of_mem_marks {t : Tree} {mark : Mark} (h : mark ∈ t.marks) :
    .occurrence mark.name ∈ t.marks := by
  induction t with
  | node o s r ih =>
    rw [marks_of, List.mem_append] at h
    rcases h with hown | hbelow
    · exact occurrence_of_mem_ownMarks hown
    · obtain ⟨c, hc, hmark⟩ := List.mem_flatMap.mp hbelow
      exact sweep_subset_of_mem_kept hc (ih c (s.kept_subset hc) hmark)

/-- What occurs in a tree is the name of a part of it. -/
theorem of_occurrence {p : String → Prop} {t : Tree}
    (h : t.Everywhere fun u => ∀ name ∈ u.name?, p name) {name : String}
    (hname : .occurrence name ∈ t.marks) : p name := by
  induction h with
  | @node o s r root _ ih =>
    rw [marks_of, List.mem_append] at hname
    rcases hname with hown | hbelow
    · simp only [ownMarks, List.mem_append, List.mem_map, Option.mem_toList, Mark.occurrence.injEq,
        exists_eq_right, reduceCtorEq, and_false, exists_false, or_false] at hown
      exact root name hown
    · obtain ⟨c, hc, hname⟩ := List.mem_flatMap.mp hbelow
      exact ih c (s.kept_subset hc) hname

/-- In code without classes all names occur. -/
theorem ClassFree.everywhere_occurrence {t : Tree} (h : t.ClassFree) :
    t.Everywhere fun u => ∀ name ∈ u.name?, .occurrence name ∈ t.marks := by
  induction h with
  | @node o s r plain _ ih =>
    refine .node (fun name hname => occurrence_of_name? hname) fun c hc => ?_
    exact (ih c hc).mono fun u hu name hname => sweep_subset_of_mem plain hc (hu name hname)

/-! ### Programs and functions -/

/-- The programs and functions in a tree. -/
def owners : Tree → List Tree :=
  sweep fun t => if t.shape.ownsTemps then [t] else []

/-- The statements of a block. -/
def blockStatements (t : Tree) : List Tree :=
  match t.shape with
  | .block statements => statements
  | _ => []

/-- The statements of a program, or those of a function whose body is a block. -/
def bodyStatements (t : Tree) : List Tree :=
  match t.shape with
  | .program statements => statements
  | shape => shape.body?.toList.flatMap blockStatements

/-- The names that a `var` statement declares. -/
def varNames (t : Tree) : List String :=
  match t.shape with
  | .varStatement .varWord declarators => declarators.filterMap declaredName?
  | _ => []

/-- The names that are declared by the first statement of a body. -/
def openingNames (t : Tree) : List String :=
  t.bodyStatements.head?.toList.flatMap varNames

/-- The owners are the tree, if it is one, and those below. -/
theorem owners_of (t : Tree) :
    t.owners = (if t.shape.ownsTemps then [t] else []) ++ t.shape.kept.flatMap owners :=
  sweep_of t

theorem owners_of_plain {t : Tree} (plain : t.shape.isClass = false)
    (shared : t.shape.ownsTemps = false) : t.owners = t.shape.children.flatMap owners := by
  rw [owners_of, shared, Shape.kept_eq plain]
  rfl

theorem owners_of_owner {t : Tree} (owner : t.shape.ownsTemps = true) :
    t.owners = t :: t.shape.children.flatMap owners := by
  rw [owners_of, if_pos owner, Shape.kept_eq (isClass_of_ownsTemps owner)]
  rfl

theorem flatMap_owners_subset {t : Tree} (plain : t.shape.isClass = false) :
    t.shape.children.flatMap owners ⊆ t.owners :=
  flatMap_children_subset plain

theorem bodyStatements_of_body? {t body : Tree} (h : t.shape.body? = some body) :
    t.bodyStatements = body.blockStatements := by
  obtain ⟨o, s, r⟩ := t
  cases s with
  | functionDecl | functionExpr | arrow | method | getter | setter =>
    cases h
    exact List.flatMap_singleton _ _
  | _ => cases h

theorem passes_owners : Passes owners := by
  refine passes_sweep fun t h => if_neg ?_
  rw [isJoint] at h
  rw [Bool.not_eq_true]
  generalize t.shape = s at h
  cases s <;> first | rfl | cases h

theorem owners_classDecl (o : Option NodeId) (name : Tree) (heritage : Option Tree)
    (members : List Tree) (r : Option Range) :
    heritage.toList.flatMap owners ⊆ (node o (.classDecl name heritage members) r).owners := by
  intro u hu
  rw [owners_of]
  simp only [shape_node, Shape.kept, Shape.children, List.flatMap_cons, List.flatMap_append,
    List.mem_append]
  exact .inr (.inr (.inl hu))

theorem owners_classExpr (o : Option NodeId) (name heritage : Option Tree) (members : List Tree)
    (r : Option Range) :
    heritage.toList.flatMap owners ⊆ (node o (.classExpr name heritage members) r).owners := by
  intro u hu
  rw [owners_of]
  simp only [shape_node, Shape.kept, List.flatMap_append, List.mem_append]
  exact .inr (.inl hu)

theorem owners_withChildren {t : Tree} {cs : List Tree} (plain : t.shape.isClass = false)
    (hlength : cs.length = t.shape.children.length) :
    cs.flatMap owners ⊆ (t.withChildren cs).owners := by
  have plain' : (t.withChildren cs).shape.isClass = false := by
    rwa [withChildren, shape_node, Shape.isClass_refill]
  have hsubset := flatMap_owners_subset plain'
  have hchildren : (t.withChildren cs).shape.children = cs := Shape.children_refill hlength
  rwa [hchildren] at hsubset

theorem owners_of_isLeaf {t : Tree} (h : t.shape.isLeaf = true) : t.owners = [] := by
  rw [owners, sweep_of_isLeaf h, if_neg]
  rw [Bool.not_eq_true]
  generalize t.shape = s at h
  cases s <;> first | rfl | cases h

theorem owners_createClass (options : Options) (properties : List Tree) (hasConstructor : Bool)
    (base : Option Tree) (r : Option Range) :
    (createClass options properties hasConstructor base r).owners =
      properties.flatMap owners ++ base.toList.flatMap owners := by
  have hcallee : (helper options.runtimeName .createClass).owners = [] := by
    rw [helper, gen, owners_of_plain rfl rfl]
    simp [Shape.children, owners_of_isLeaf (t := ident options.runtimeName) rfl]
  have hliteral (value : Literal) : (gen (.literal value)).owners = [] := owners_of_isLeaf rfl
  have hobject : (gen (.object properties)).owners = properties.flatMap owners :=
    owners_of_plain rfl rfl
  rw [createClass, owners_of_plain rfl rfl]
  cases base <;> simp [Shape.children, hcallee, hobject, hliteral, boolean]

theorem owners_declareClass (options : Options) {name : Tree} {c : String}
    (named : name.name? = some c) (call : Tree) (r : Option Range) :
    (declareClass options name call r).owners = call.owners := by
  have hname : name.owners = [] := by
    refine owners_of_isLeaf ?_
    obtain ⟨o, s, r⟩ := name
    cases s <;> first | rfl | cases named
  rw [declareClass, owners_of_plain rfl rfl, shape_node, Shape.children, List.flatMap_singleton,
    owners_of_plain rfl rfl]
  simp [Shape.children, hname]

theorem owners_assignTemp (number : Nat) (value : Tree) (r : Option Range) :
    (node none (.paren (.assign (.temp number) value)) r).owners = value.owners := by
  have hassign : (assign (temp number) value).owners = value.owners := by
    rw [assign, gen, owners_of_plain rfl rfl]
    simp [Shape.children, owners_of_isLeaf (t := temp number) rfl]
  rw [owners_of_plain rfl rfl]
  simp [Shape.children, hassign]

theorem owners_declareTemps (temps : List Nat) : (declareTemps temps).owners = [] := by
  rw [declareTemps, gen, owners_of_plain rfl rfl, List.flatMap_eq_nil_iff]
  intro declarator hmem
  obtain ⟨n, -, rfl⟩ := List.mem_map.mp hmem
  rw [gen, owners_of_plain rfl rfl]
  simp [Shape.children, owners_of_isLeaf (t := gen (.binding (Temps.name n))) rfl]

theorem owners_prepend (declaration body : Tree) :
    (prepend declaration body).owners = declaration.owners ++ body.owners := by
  have hstatements : body.statements.flatMap owners = body.owners := by
    rw [statements]
    split
    case h_1 hblock =>
      rw [owners_of_plain (t := body) (by rw [hblock]; rfl) (by rw [hblock]; rfl), hblock,
        Shape.children]
    case h_2 =>
      rw [List.flatMap_singleton, owners_of_plain (t := node none _ _) rfl rfl]
      exact List.flatMap_singleton _ _
  rw [prepend, owners_of_plain rfl rfl, ← hstatements]
  rfl

/-- The declaration of temporaries has no functions in it. -/
theorem flatMap_owners_declaring {t : Tree} (owner : t.shape.ownsTemps = true) (temps : List Nat) :
    (t.declaring temps).shape.children.flatMap owners = t.shape.children.flatMap owners := by
  rw [declaring]
  split
  case isTrue => rfl
  case isFalse =>
    rw [shape_node]
    rcases ownsTemps_cases owner with ⟨statements, hs⟩ | ⟨hfunction, hdeclaring⟩
    · rw [hs, Shape.declaring, Shape.children, Shape.children, List.flatMap_cons,
        owners_declareTemps, List.nil_append]
    · obtain ⟨init, body, -, hchildren, hmap⟩ := Shape.exists_body hfunction
      rw [hdeclaring, (hmap _).2, hchildren, List.flatMap_append, List.flatMap_append,
        List.flatMap_singleton, List.flatMap_singleton, owners_prepend, owners_declareTemps,
        List.nil_append]

/-- The temporaries of a program or a function are declared by the first statement of its body. -/
theorem openingNames_declaring {t : Tree} (owner : t.shape.ownsTemps = true) {temps : List Nat}
    {n : Nat} (hn : n ∈ temps) : Temps.name n ∈ (t.declaring temps).openingNames := by
  have hnames : Temps.name n ∈ (declareTemps temps).varNames := by
    simp only [varNames, declareTemps, gen, shape_node, List.filterMap_map, List.mem_filterMap]
    exact ⟨n, hn, rfl⟩
  have hhead : (t.declaring temps).bodyStatements.head? = some (declareTemps temps) := by
    rw [declaring, if_neg (List.ne_nil_of_mem hn)]
    rcases ownsTemps_cases owner with ⟨statements, hs⟩ | ⟨hfunction, hdeclaring⟩
    · rw [hs]
      rfl
    · obtain ⟨init, body, -, -, hmap⟩ := Shape.exists_body hfunction
      have hstatements := bodyStatements_of_body?
        (t := node none (t.shape.mapBody (prepend (declareTemps temps))) t.range) (hmap _).1
      rw [hdeclaring, hstatements]
      rfl
  rw [openingNames, hhead]
  simpa using hnames

theorem head_declaring {t : Tree} (owner : t.shape.ownsTemps = true) (temps : List Nat) :
    (t.declaring temps).shape.head = t.shape.head := by
  rw [declaring]
  split
  case isTrue => rfl
  case isFalse =>
    rw [shape_node]
    rcases ownsTemps_cases owner with ⟨statements, hs⟩ | ⟨-, hdeclaring⟩
    · rw [hs]
      rfl
    · rw [hdeclaring, Shape.head_mapBody]

/-- A member is still a function when it has become a property. -/
theorem exists_owner_asProperty {t : Tree} {kind : MemberKind}
    (legal : MemberKind.ofShape? t.shape = some kind) :
    ∃ f, (t.asProperty kind).owners = f :: t.shape.children.flatMap owners ∧
      f.openingNames = t.openingNames ∧ f.marks = t.marks ∧ f.shape.head = t.shape.head := by
  rw [asProperty]
  split
  case isFalse => exact ⟨t, owners_of_owner (ownsTemps_of_ofShape? legal), rfl, rfl, rfl⟩
  case isTrue hkind =>
    obtain ⟨o, s, r⟩ := t
    obtain ⟨name, parameters, body, rfl : s = _⟩ := isConstructor_of_ofShape? (hkind ▸ legal)
    refine ⟨node none (.functionExpr none parameters body) r, ?_, rfl, ?_, rfl⟩
    · rw [constructorProperty, shape_node, owners_of_plain rfl rfl, shape_node, Shape.children,
        List.flatMap_singleton, owners_of_owner rfl]
      rfl
    · rw [marks_node rfl, marks_node rfl]
      rfl

/-- The tree `u` is, or wraps up, the program or function `f` that `t` becomes with the parts `cs`
and with temporaries declared at the top. -/
structure Wraps (u f t : Tree) (cs : List Tree) (temps : List Nat) : Prop where
  owners_eq : u.owners = f :: cs.flatMap owners
  marks_eq : u.marks = ((t.withChildren cs).declaring temps).marks
  self_eq : f.marks = u.marks
  openingNames_eq : f.openingNames = ((t.withChildren cs).declaring temps).openingNames
  head_eq : f.shape.head = (t.withChildren cs).shape.head

section

variable {t : Tree} {cs : List Tree} (hlength : cs.length = t.shape.children.length)
  (temps : List Nat)

include hlength

/-- Temporaries are declared at the top of the body. -/
theorem wraps_declaring (owner : t.shape.ownsTemps = true) :
    Wraps ((t.withChildren cs).declaring temps) ((t.withChildren cs).declaring temps) t cs
      temps := by
  have owner' := (ownsTemps_withChildren t cs).trans owner
  refine ⟨?_, rfl, rfl, rfl, head_declaring owner' temps⟩
  rw [owners_of_owner ((ownsTemps_declaring _ _).trans owner'), flatMap_owners_declaring owner',
    children_withChildren hlength]

/-- A property is a wrapper around the member that it was. -/
theorem exists_wraps_asProperty {kind : MemberKind}
    (legal : MemberKind.ofShape? t.shape = some kind) :
    ∃ f, Wraps (((t.withChildren cs).declaring temps).asProperty kind) f t cs temps := by
  have owner' := (ownsTemps_withChildren t cs).trans (ownsTemps_of_ofShape? legal)
  have legal' := (ofShape?_declaring t cs temps).trans legal
  obtain ⟨f, howners, hopening, hmarks, hhead⟩ := exists_owner_asProperty legal'
  refine ⟨f, ?_, marks_asProperty legal', hmarks.trans (marks_asProperty legal').symm, hopening,
    hhead.trans (head_declaring owner' temps)⟩
  rw [howners, flatMap_owners_declaring owner', children_withChildren hlength]

end

/-! ### Openings and declarations -/

/-- Whether a name is declared by the tree, by a `var` statement that it is, or by one that it
begins with. -/
def leadsTo (name : String) (t : Tree) : Bool :=
  t.declaredName? == some name || t.varNames.contains name ||
    (t.blockStatements.head?.toList.flatMap varNames).contains name

theorem leadsTo_iff {name : String} {t : Tree} : t.leadsTo name = true ↔
    t.declaredName? = some name ∨ name ∈ t.varNames ∨
      ∃ first ∈ t.blockStatements.head?, name ∈ first.varNames := by
  simp [leadsTo, or_assoc]

theorem exists_leadsTo_of_varNames {name : String} {t : Tree} (h : name ∈ t.varNames) :
    t.leadsTo name = true ∧ ∃ c ∈ t.shape.kept, c.leadsTo name = true := by
  refine ⟨leadsTo_iff.mpr (.inr (.inl h)), ?_⟩
  rw [varNames] at h
  split at h
  case h_1 declarators hs =>
    obtain ⟨d, hd, hname⟩ := List.mem_filterMap.mp h
    exact ⟨d, by rwa [hs], leadsTo_iff.mpr (.inl hname)⟩
  case h_2 => cases h

theorem exists_leadsTo_of_leadsTo {name : String} {t : Tree} (h : t.leadsTo name = true) :
    t.declaredName? = some name ∨ ∃ c ∈ t.shape.kept, c.leadsTo name = true := by
  rcases leadsTo_iff.mp h with hdeclared | hvar | ⟨first, hfirst, hname⟩
  · exact .inl hdeclared
  · exact .inr (exists_leadsTo_of_varNames hvar).2
  · refine .inr ⟨first, ?_, (exists_leadsTo_of_varNames hname).1⟩
    rw [blockStatements] at hfirst
    split at hfirst
    case h_1 hs =>
      rw [hs]
      exact List.mem_of_head? hfirst
    case h_2 => cases hfirst

theorem exists_leadsTo_of_openingNames {name : String} {t : Tree}
    (owner : t.shape.ownsTemps = true) (h : name ∈ t.openingNames) :
    ∃ c ∈ t.shape.kept, c.leadsTo name = true := by
  obtain ⟨first, hfirst, hname⟩ := List.mem_flatMap.mp h
  rw [Option.mem_toList] at hfirst
  rcases ownsTemps_cases owner with ⟨statements, hs⟩ | ⟨hfunction, -⟩
  · rw [bodyStatements, hs] at hfirst
    rw [hs]
    exact ⟨first, List.mem_of_head? hfirst, (exists_leadsTo_of_varNames hname).1⟩
  · obtain ⟨init, body, hbody, hchildren, -⟩ := Shape.exists_body hfunction
    rw [bodyStatements_of_body? hbody] at hfirst
    rw [Shape.kept_eq (isClass_of_ownsTemps owner), hchildren]
    exact ⟨body, List.mem_append_right _ List.mem_cons_self,
      leadsTo_iff.mpr (.inr (.inr ⟨first, hfirst, hname⟩))⟩

theorem leadsTo_of_ownsTemps {t : Tree} (owner : t.shape.ownsTemps = true) (name : String) :
    t.leadsTo name = false := by
  rw [leadsTo, declaredName?, varNames, blockStatements]
  generalize t.shape = s at owner
  cases s <;> first | rfl | cases owner

theorem count_ownMarks_declaration (name : String) (t : Tree) :
    t.ownMarks.count (.declaration name) = if t.declaredName? = some name then 1 else 0 := by
  rw [ownMarks]
  cases t.name? <;> cases t.declaredName? <;> cases t.assignedName? <;> simp [List.count_cons]

/-- A body that declares a name at its top has a part that leads to the declaration, and so has
every such part, down to the declaration itself. -/
theorem countP_owner_add_le (name : String) (t : Tree) :
    (if t.shape.ownsTemps then [t] else []).countP (name ∈ ·.openingNames) +
        (if t.leadsTo name then 1 else 0) ≤
      t.ownMarks.count (.declaration name) + t.shape.kept.countP (leadsTo name) := by
  rw [count_ownMarks_declaration]
  cases owner : t.shape.ownsTemps with
  | true =>
    rw [leadsTo_of_ownsTemps owner]
    by_cases hname : name ∈ t.openingNames
    · have hpos := List.countP_pos_iff.mpr (exists_leadsTo_of_openingNames owner hname)
      simp [hname]
      omega
    · simp [hname]
  | false =>
    by_cases hleads : t.leadsTo name = true
    · rcases exists_leadsTo_of_leadsTo hleads with hdeclared | hchild
      · simp [hleads, hdeclared]
      · have hpos := List.countP_pos_iff.mpr hchild
        simp [hleads]
        omega
    · simp [hleads]

theorem countP_flatMap_add_le {ts : List Tree} {mark : Mark} {p q : Tree → Bool}
    (h : ∀ c ∈ ts, c.owners.countP p + (if q c then 1 else 0) ≤ c.marks.count mark) :
    (ts.flatMap owners).countP p + ts.countP q ≤ (ts.flatMap marks).count mark := by
  induction ts with
  | nil => exact le_rfl
  | cons c ts ih =>
    obtain ⟨hhead, htail⟩ := List.forall_mem_cons.mp h
    have hrest := ih htail
    rw [List.flatMap_cons, List.flatMap_cons, List.countP_append, List.count_append,
      List.countP_cons]
    omega

/-- **What is declared at the top of a body is declared:** there are no more such bodies than
declarations. -/
theorem countP_owners_add_le (name : String) (t : Tree) :
    t.owners.countP (name ∈ ·.openingNames) + (if t.leadsTo name then 1 else 0) ≤
      t.marks.count (.declaration name) := by
  induction t with
  | node o s r ih =>
    have hroot := countP_owner_add_le name (.node o s r)
    have hbelow := countP_flatMap_add_le fun c hc => ih c (s.kept_subset hc)
    rw [owners_of, marks_of, List.countP_append, List.count_append]
    rw [shape_node] at hroot ⊢
    omega

/-! ### Names that stay -/

/-- The tree is no name, neither in parentheses nor without. -/
structure Nameless (t : Tree) : Prop where
  name?_eq : t.name? = none
  bareName?_eq : t.bareName? = none

/-- Two trees that are the same name, or none. -/
structure SameNames (t t' : Tree) : Prop where
  name?_eq : t'.name? = t.name?
  bareName?_eq : t'.bareName? = t.bareName?

theorem SameNames.refl (t : Tree) : SameNames t t :=
  ⟨rfl, rfl⟩

theorem SameNames.trans {t t' t'' : Tree} (h₁ : SameNames t t') (h₂ : SameNames t' t'') :
    SameNames t t'' :=
  ⟨h₂.name?_eq.trans h₁.name?_eq, h₂.bareName?_eq.trans h₁.bareName?_eq⟩

theorem Nameless.sameNames {t t' : Tree} (h : t.Nameless) (h' : t'.Nameless) : SameNames t t' :=
  ⟨h'.name?_eq.trans h.name?_eq.symm, h'.bareName?_eq.trans h.bareName?_eq.symm⟩

theorem nameless_of_isNameless {t : Tree} (h : t.shape.isNameless = true) : t.Nameless := by
  refine ⟨?_, ?_⟩
  · rw [name?]
    generalize t.shape = s at h
    cases s <;> first | rfl | cases h
  · rw [bareName?_of]
    generalize t.shape = s at h
    cases s <;> first | rfl | cases h

theorem nameless_paren {t : Tree} (h : t.shape.isNameless = true) (o : Option NodeId)
    (r : Option Range) : (node o (.paren t) r).Nameless :=
  ⟨rfl, (bareName?_of _).trans (nameless_of_isNameless h).bareName?_eq⟩

theorem nameless_of_superRole {t : Tree} {use : SuperUse Tree} (role : t.superRole = .use use) :
    t.Nameless := by
  refine nameless_of_isNameless ?_
  cases hs : t.shape with
  | identifier | binding | paren =>
    rw [superRole, hs] at role
    cases role
  | _ => rfl

theorem nameless_of_ownsTemps {t : Tree} (h : t.shape.ownsTemps = true) : t.Nameless := by
  refine nameless_of_isNameless ?_
  generalize t.shape = s at h
  cases s <;> first | rfl | cases h

theorem nameless_asProperty {t : Tree} {kind : MemberKind}
    (legal : MemberKind.ofShape? t.shape = some kind) : (t.asProperty kind).Nameless := by
  rw [asProperty]
  split
  case isFalse => exact nameless_of_ownsTemps (ownsTemps_of_ofShape? legal)
  case isTrue hkind =>
    obtain ⟨o, s, r⟩ := t
    obtain ⟨name, parameters, body, rfl : s = _⟩ := isConstructor_of_ofShape? (hkind ▸ legal)
    exact nameless_of_isNameless rfl

section

variable {t : Tree} {cs : List Tree} (h : List.Forall₂ SameNames t.shape.children cs)

include h

/-- New parts do not make a name of a construct, or of a name none. -/
theorem SameNames.withChildren : SameNames t (t.withChildren cs) := by
  obtain ⟨z, hfst, hsnd, hpairs⟩ := Shape.exists_pairs_of_forall₂ h
  refine ⟨?_, ?_⟩
  · rw [name?, name?, Tree.withChildren, shape_node, hsnd, hfst]
    cases z <;> rfl
  · rw [bareName?_of, bareName?_of t, Tree.withChildren, shape_node, hsnd, hfst]
    cases z with
    | paren expression => exact (hpairs expression (by simp [Shape.children])).bareName?_eq
    | _ => rfl

/-- A construct whose parts are the same names as before is marked as before. -/
theorem ownMarks_withChildren : (t.withChildren cs).ownMarks = t.ownMarks := by
  have hname := (SameNames.withChildren h).name?_eq
  obtain ⟨z, hfst, hsnd, hpairs⟩ := Shape.exists_pairs_of_forall₂ h
  have hdeclared : (t.withChildren cs).declaredName? = t.declaredName? := by
    rw [declaredName?, declaredName?, Tree.withChildren, shape_node, hsnd, hfst]
    cases z with
    | declarator name | classDecl name => exact (hpairs name (by simp [Shape.children])).name?_eq
    | _ => rfl
  have hassigned : (t.withChildren cs).assignedName? = t.assignedName? := by
    rw [assignedName?, assignedName?, Tree.withChildren, shape_node, hsnd, hfst, Shape.target?_map,
      Shape.target?_map]
    cases htarget : z.target? with
    | none => rfl
    | some c => exact (hpairs c (Shape.mem_children_of_target? htarget)).bareName?_eq
  rw [ownMarks, ownMarks, hname, hdeclared, hassigned]

theorem marks_withChildren (plain : t.shape.isClass = false) :
    (t.withChildren cs).marks = t.ownMarks ++ cs.flatMap marks := by
  have plain' : (t.withChildren cs).shape.isClass = false := by
    rwa [Tree.withChildren, shape_node, Shape.isClass_refill]
  rw [marks_of_plain plain', ownMarks_withChildren h, Tree.withChildren, shape_node,
    Shape.children_refill h.length_eq.symm]

end

end Tree

/-- The code of a use of `super` is no name. -/
theorem Site.Direct.nameless {site : Site} {range : Option Range} {use : SuperUse Tree}
    {operands : List Tree} {t : Tree} (code : site.Direct range use operands t) : t.Nameless := by
  refine Tree.nameless_of_isNameless ?_
  cases code with
  | compound =>
    rw [Site.compound]
    split <;> rfl
  | _ => rfl

theorem Site.Bound.nameless {site : Site} {range : Option Range} {number : Nat}
    {use : SuperUse Tree} {key t : Tree} {rest : List Tree}
    (code : site.Bound range number use key rest t) : t.Nameless := by
  cases code <;> exact Tree.nameless_paren rfl _ _

open Declass.Tree in
theorem Expands.sameNames {site : Site} {nested : Bool} {a a' : Account} {ts ts' : List Tree}
    (h : Expands site nested a ts ts' a') : List.Forall₂ SameNames ts ts' := by
  have single {t t' : Tree} (h : SameNames t t') : List.Forall₂ SameNames [t] [t'] := .cons h .nil
  have same {t t' : Tree} (h : t.shape.isNameless = true) (h' : t'.shape.isNameless = true) :
      List.Forall₂ SameNames [t] [t'] :=
    single ((nameless_of_isNameless h).sameNames (nameless_of_isNameless h'))
  induction h with
  | nil => exact .nil
  | cons _ _ ihHead ihTail => exact .cons (List.forall₂_cons.mp ihHead).1 ihTail
  | walk _ _ ih | enter _ _ ih => exact single (.withChildren ih)
  | classDecl _ | classExpr _ => exact same rfl rfl
  | misplaced _ | bare _ => exact single (.refl _)
  | stray role => exact single ((nameless_of_superRole role).sameNames (nameless_of_isNameless rfl))
  | direct role _ code => exact single ((nameless_of_superRole role).sameNames code.nameless)
  | bound role _ _ _ code => exact single ((nameless_of_superRole role).sameNames code.nameless)

open Declass.Tree in
/-- **Names stay where they are** when classes are lowered. -/
theorem Lowers.sameNames {options : Options} {c : Option String} {a a' : Account}
    {ts ts' : List Tree} (h : Lowers options c a ts ts' a') : List.Forall₂ SameNames ts ts' := by
  have single {t t' : Tree} (h : SameNames t t') : List.Forall₂ SameNames [t] [t'] := .cons h .nil
  have same {t t' : Tree} (h : t.Nameless) (h' : t'.Nameless) : List.Forall₂ SameNames [t] [t'] :=
    single (h.sameNames h')
  induction h with
  | nil => exact .nil
  | cons _ _ ihHead ihTail => exact .cons (List.forall₂_cons.mp ihHead).1 ihTail
  | walk _ _ _ ih => exact single (.withChildren ih)
  | @scope _ _ t cs owner _ _ =>
    refine same (nameless_of_ownsTemps owner) (nameless_of_ownsTemps ?_)
    rwa [ownsTemps_declaring, ownsTemps_withChildren]
  | classDecl | classExprFree =>
    exact same (nameless_of_isNameless rfl) (nameless_of_isNameless rfl)
  | classExprBound => exact same (nameless_of_isNameless rfl) (nameless_paren rfl _ _)
  | member legal =>
    refine same (nameless_of_ownsTemps (ownsTemps_of_ofShape? legal)) (nameless_asProperty ?_)
    rwa [ofShape?_declaring]

end Declass
