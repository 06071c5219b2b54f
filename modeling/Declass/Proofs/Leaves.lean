import Declass.Proofs.Scaffold

/-!
# The leaves of a lowered program

Lowering moves code about, wraps it and adds to it, and a part of a use of `super` may be needed
twice. Still each leaf of the program stands in the result exactly as often as in the program, and
the leaves stand in the same order, save that the members of a class come before its heritage and
that the name of a class expression is dropped.

Leaves are followed by the nodes they stem from. A leaf of the result that is no leaf of the program
has been generated and bears no mark.

## Main definitions

* `Tree.leaves` — the marked leaves of a tree
* `Tree.sourceLeaves` — the same, in the order in which the parts of a class are emitted

## Main results

* `Lowers.leaves_eq` — the relation `Lowers` keeps leaves
* `lowerProgram_leaves` — lowering neither loses, duplicates nor reorders leaves
-/

namespace Declass

open Edit Lowering

/-! ### Leaves -/

namespace Tree

/-- The mark of a construct that is a leaf. -/
def ownLeaf {α : Type} (origin : Option NodeId) (shape : Shape α) : List NodeId :=
  if shape.isLeaf then origin.toList else []

/-- The marked leaves of a tree, from left to right. -/
def leaves : Tree → List NodeId :=
  para fun origin shape _ => ownLeaf origin shape ++ shape.children.flatMap Prod.snd

/-- The marked leaves of a tree, from left to right, but at a class those of its name if it is a
declaration, then those of its members, then those of its heritage. -/
def sourceLeaves : Tree → List NodeId :=
  gather ownLeaf fun parts =>
    parts.name.toList.flatMap Prod.snd ++
      (parts.members.flatMap Prod.snd ++ parts.heritage.toList.flatMap Prod.snd)

@[simp] theorem ownLeaf_none {α : Type} (s : Shape α) : ownLeaf none s = [] := by
  simp [ownLeaf]

theorem ownLeaf_eq_nil {α : Type} {o : Option NodeId} {s : Shape α} (h : s.isLeaf = false) :
    ownLeaf o s = [] := by
  simp [ownLeaf, h]

theorem leaves_node (o : Option NodeId) (s : Shape Tree) (r : Option Range) :
    leaves (.node o s r) = ownLeaf o s ++ s.children.flatMap leaves := by
  have hown : ownLeaf o (s.map fun c => (c, leaves c)) = ownLeaf o s := by
    rw [ownLeaf, isLeaf_map, ownLeaf]
  rw [leaves, para_node, ← leaves, hown, Shape.children_map, List.flatMap_map]

theorem leaves_eq (t : Tree) :
    t.leaves = ownLeaf t.origin t.shape ++ t.shape.children.flatMap leaves := by
  rw [← leaves_node, node_eta]

/-- A construct that is no leaf has the leaves of its children. -/
theorem leaves_of_not_isLeaf {t : Tree} (h : t.shape.isLeaf = false) :
    t.leaves = t.shape.children.flatMap leaves := by
  rw [leaves_eq, ownLeaf_eq_nil h, List.nil_append]

theorem leaves_gen (s : Shape Tree) : leaves (.gen s) = s.children.flatMap leaves := by
  rw [gen, leaves_node, ownLeaf_none, List.nil_append]

theorem sourceLeaves_of_not_isClass {t : Tree} (h : t.shape.isClass = false) :
    t.sourceLeaves = ownLeaf t.origin t.shape ++ t.shape.children.flatMap sourceLeaves :=
  gather_of_not_isClass h

theorem sourceLeaves_classDecl (o : Option NodeId) (name : Tree) (heritage : Option Tree)
    (members : List Tree) (r : Option Range) :
    sourceLeaves (.node o (.classDecl name heritage members) r) = name.sourceLeaves ++
      (members.flatMap sourceLeaves ++ heritage.toList.flatMap sourceLeaves) := by
  rw [sourceLeaves, gather_node]
  cases heritage <;> simp [Shape.classParts?, ClassParts.map, List.flatMap_map]

theorem sourceLeaves_classExpr (o : Option NodeId) (name heritage : Option Tree)
    (members : List Tree) (r : Option Range) :
    sourceLeaves (.node o (.classExpr name heritage members) r) =
      members.flatMap sourceLeaves ++ heritage.toList.flatMap sourceLeaves := by
  rw [sourceLeaves, gather_node]
  cases heritage <;> simp [Shape.classParts?, ClassParts.map, List.flatMap_map]

/-- A name is a leaf. -/
theorem leaves_of_name? {t : Tree} {name : String} (h : t.name? = some name) :
    t.leaves = t.sourceLeaves := by
  have hshape : t.shape.isClass = false ∧ t.shape.children = [] := by
    rw [name?] at h
    generalize t.shape = s at h
    cases s <;> first | exact ⟨rfl, rfl⟩ | cases h
  rw [leaves_eq, sourceLeaves_of_not_isClass hshape.1, hshape.2, List.flatMap_nil, List.flatMap_nil]

/-! ### Generated code -/

theorem permeable_leaves : Permeable leaves where
  through t h := by
    refine leaves_of_not_isLeaf ?_
    generalize t.shape = s at h
    cases s <;> first | rfl | cases h
  leaf s h := by rw [leaves_gen, Shape.children_eq_nil_of_isLeaf h, List.flatMap_nil]
  assign number value := by
    have htemp : (temp number).leaves = [] := leaves_gen _
    rw [Tree.assign, leaves_gen]
    simp [Shape.children, htemp]

theorem leaves_declareClass (options : Options) (name call : Tree) (r : Option Range) :
    leaves (declareClass options name call r) = name.leaves ++ call.leaves := by
  simp [declareClass, leaves_node, Shape.children]

end Tree

/-! ### Lowering -/

theorem Shape.isLeaf_refill {α β : Type} [Inhabited β] (s : Shape α) (bs : List β) :
    (s.refill bs).isLeaf = s.isLeaf := by
  cases s with
  | classDecl _ option _ | functionExpr option _ _ => cases option <;> rfl
  | _ => rfl

theorem Expands.sourceLeaves_eq {site : Site} {nested : Bool} {a a' : Account} {ts ts' : List Tree}
    (h : Expands site nested a ts ts' a') :
    ts'.flatMap Tree.sourceLeaves = ts.flatMap Tree.sourceLeaves := by
  refine flatMap_eq_of_forall₂ (h.gather_eq ?_ (fun s => Tree.ownLeaf_none s) ?_ ?_)
  · intro o s hs
    cases s <;> first | rfl | cases hs
  · intro o s cs
    rw [Tree.ownLeaf, Shape.isLeaf_refill, Tree.ownLeaf]
  · intro name h h' ms hh
    cases h <;> cases h' <;> simp_all

theorem Tree.sourceLeaves_withConstructor (members : List Tree) (hasBase : Bool) :
    (withConstructor members hasBase).flatMap sourceLeaves = members.flatMap sourceLeaves :=
  flatMap_withConstructor ownLeaf_none members hasBase

/-- Filling in children that have the leaves of the old ones. -/
theorem Tree.leaves_withChildren {t : Tree} {cs : List Tree} (hclass : t.shape.isClass = false)
    (hlength : cs.length = t.shape.children.length)
    (h : cs.flatMap leaves = t.shape.children.flatMap sourceLeaves) :
    (t.withChildren cs).leaves = t.sourceLeaves := by
  have hown : ownLeaf t.origin (t.shape.refill cs) = ownLeaf t.origin t.shape := by
    rw [ownLeaf, Shape.isLeaf_refill, ownLeaf]
  rw [withChildren, leaves_node, hown, Shape.children_refill hlength, h,
    sourceLeaves_of_not_isClass hclass]

/-- **Lowering keeps the leaves, in their order.** -/
theorem Lowers.leaves_eq {options : Options} {c : Option String} {a a' : Account}
    {ts ts' : List Tree} (h : Lowers options c a ts ts' a') :
    ts'.flatMap Tree.leaves = ts.flatMap Tree.sourceLeaves := by
  have single {t t' : Tree} (h : t'.leaves = t.sourceLeaves) :
      [t'].flatMap Tree.leaves = [t].flatMap Tree.sourceLeaves := by simp [h]
  induction h with
  | nil => rfl
  | cons _ _ ihHead ihTail =>
    rw [List.flatMap_cons, List.flatMap_cons, ihTail]
    simpa using ihHead
  | walk plain _ below ih => exact single (Tree.leaves_withChildren plain below.length_eq ih)
  | scope owner below ih =>
    refine single ?_
    rw [Tree.permeable_leaves.declaring ((ownsTemps_withChildren _ _).trans owner)]
    exact Tree.leaves_withChildren (Tree.isClass_of_ownsTemps owner) below.length_eq ih
  | classDecl named _ _ ihAbove ihBelow =>
    refine single ?_
    rw [Tree.leaves_declareClass, Tree.permeable_leaves.createClass, ihAbove, ihBelow,
      Tree.sourceLeaves_withConstructor, Tree.leaves_of_name? named, Tree.sourceLeaves_classDecl]
  | classExprBound _ _ _ ihAbove ihBelow =>
    refine single ?_
    rw [Tree.permeable_leaves.assignTemp, Tree.permeable_leaves.createClass, ihAbove, ihBelow,
      Tree.sourceLeaves_withConstructor, Tree.sourceLeaves_classExpr]
  | classExprFree _ _ _ ihAbove ihBelow =>
    refine single ?_
    rw [Tree.permeable_leaves.createClass, ihAbove, ihBelow, Tree.sourceLeaves_withConstructor,
      Tree.sourceLeaves_classExpr]
  | member legal expanded below ih =>
    refine single ?_
    have howner := Tree.ownsTemps_of_ofShape? legal
    rw [Tree.permeable_leaves.asProperty ((ofShape?_declaring _ _ _).trans legal),
      Tree.permeable_leaves.declaring ((ownsTemps_withChildren _ _).trans howner)]
    exact Tree.leaves_withChildren (Tree.isClass_of_ownsTemps howner)
      (below.length_eq.trans expanded.length_eq) (ih.trans expanded.sourceLeaves_eq)

/-- **Lowering neither loses, duplicates nor reorders leaves.** If it succeeds on a tree, the result
is a tree, and the leaves of the old store that occur in it are those of the old tree, in the order
in which the parts of classes are emitted. -/
theorem lowerProgram_leaves {s : Store} {root : NodeId} (closed : s.Closed root)
    (acyclic : s.Acyclic root) {options : Options} {state : LoweringState} {lowered : NodeId}
    {session : Session LoweringState}
    (run : (lowerProgram options root).runOn ⟨s, state⟩ = (.ok lowered, session)) :
    session.store.Closed lowered ∧ session.store.Acyclic lowered ∧
      (session.store.tree s.size lowered).leaves = (s.tree s.size root).sourceLeaves := by
  have hg : s.Grounded root := Store.grounded_iff.mpr ⟨closed, acyclic⟩
  have hspec := lowerProgram_spec hg options s.size le_rfl state
  change exec (lowerProgram options root) ⟨s, state⟩ = _ at run
  rw [run] at hspec
  obtain ⟨-, t', hd, hrel⟩ := hspec
  obtain ⟨closed', acyclic'⟩ := Store.grounded_iff.mp hd.grounded
  refine ⟨closed', acyclic', ?_⟩
  rw [hd.tree_eq]
  simpa using hrel.leaves_eq

/-- `class C extends B` with the method `m` that adds `v` to `super[k]`. -/
def compoundStore : Store where
  nodes := #[⟨.binding "C", none⟩, ⟨.identifier "B", none⟩, ⟨.superExpr, none⟩,
    ⟨.identifier "k", none⟩, ⟨.lookup ⟨2⟩ ⟨3⟩, none⟩, ⟨.identifier "v", none⟩,
    ⟨.binary ⟨4⟩ "+=" ⟨5⟩, none⟩, ⟨.exprStatement ⟨6⟩, none⟩, ⟨.block [⟨7⟩], none⟩,
    ⟨.method (.identifier "m") [] ⟨8⟩, none⟩, ⟨.classDecl ⟨0⟩ (some ⟨1⟩) [⟨9⟩], none⟩,
    ⟨.program [⟨10⟩], none⟩]

/-- The key is read and written, and still emitted once, before the value. -/
theorem lowerProgram_leaves_compound : ∃ lowered session,
    (lowerProgram {} ⟨11⟩).runOn ⟨compoundStore, {}⟩ = (.ok lowered, session) ∧
      (session.store.tree 12 lowered).leaves = [⟨0⟩, ⟨3⟩, ⟨5⟩, ⟨1⟩] := by
  have fits : compoundStore.Fits 12 ⟨11⟩ := by decide +kernel
  obtain ⟨closed, acyclic⟩ := Store.grounded_iff.mp fits.grounded
  have ok : ((lowerProgram {} ⟨11⟩).runOn ⟨compoundStore, {}⟩).1 = .ok ⟨67⟩ := by decide +kernel
  have leaves : (compoundStore.tree 12 ⟨11⟩).sourceLeaves = [⟨0⟩, ⟨3⟩, ⟨5⟩, ⟨1⟩] := by
    decide +kernel
  generalize run : (lowerProgram {} ⟨11⟩).runOn ⟨compoundStore, {}⟩ = out at ok ⊢
  obtain ⟨_, session⟩ := out
  obtain rfl : _ = Except.ok _ := ok
  exact ⟨⟨67⟩, session, rfl, (lowerProgram_leaves closed acyclic run).2.2.trans leaves⟩

end Declass
