import Declass.Code.Store
import Declass.Proofs.Shape

/-!
# Trees

What a store holds below a node is a graph; followed along all paths it is a tree. Sharing, the
order of the indices and whatever else the store holds do not show in the tree. A leaf may be marked
with the node it stems from, so that leaves can be followed through a rewriting.

## Main definitions

* `Tree`, `Tree.para`, `Tree.height`
* `Tree.Everywhere` — a property of all subtrees
* `Tree.violations` — the subtrees that do not have a property

## Main results

* `Tree.induct` — induction over trees, with a hypothesis for each child
* `Tree.height_le_succ_iff` — a tree fits into `h + 1` levels iff its children fit into `h`
-/

namespace Declass

/-- The name that an identifier holds, where it is declared or used. -/
def Shape.name? {α : Type} : Shape α → Option String
  | .binding name | .identifier name => some name
  | _ => none

/-- A construct with all that is below it. `origin` is the node that a leaf stems from. -/
inductive Tree where
  | node (origin : Option NodeId) (shape : Shape Tree) (range : Option Range)

namespace Tree

instance : Inhabited Tree := ⟨.node none .emptyStatement none⟩

/-- The node that a leaf stems from. -/
def origin : Tree → Option NodeId
  | .node origin _ _ => origin

/-- The construct at the root. -/
def shape : Tree → Shape Tree
  | .node _ shape _ => shape

/-- The range of the root. -/
def range : Tree → Option Range
  | .node _ _ range => range

@[simp] theorem origin_node (o : Option NodeId) (s : Shape Tree) (r : Option Range) :
    (Tree.node o s r).origin = o := rfl

@[simp] theorem shape_node (o : Option NodeId) (s : Shape Tree) (r : Option Range) :
    (Tree.node o s r).shape = s := rfl

@[simp] theorem range_node (o : Option NodeId) (s : Shape Tree) (r : Option Range) :
    (Tree.node o s r).range = r := rfl

@[simp] theorem node_eta (t : Tree) : Tree.node t.origin t.shape t.range = t := by
  cases t; rfl

/-- The name that an identifier holds, where it is declared or used. -/
def name? (t : Tree) : Option String :=
  match t.shape with
  | .binding name | .identifier name => some name
  | _ => none

/-! ### Recursion -/

private theorem sizeOf_lt_of_mem {s : Shape Tree} {c : Tree} (h : c ∈ s.children) :
    sizeOf c < sizeOf s := by
  cases s with
  | emptyStatement | binding | identifier | thisExpr | superExpr | literal => cases h
  | program ts | block ts | varStatement _ ts | array ts | object ts | comma ts =>
    exact Nat.lt_add_left _ (List.sizeOf_lt_of_mem h)
  | exprStatement t | throwStatement t | property _ t | getter _ t | member t | unary _ t | paren t
  | spread t =>
    obtain rfl := List.mem_singleton.mp h
    simp +arith
  | whileStatement t u | catchClause t u | setter _ t u | lookup t u | binary t _ u =>
    simp only [Shape.children, List.mem_cons, List.not_mem_nil, or_false] at h
    rcases h with rfl | rfl <;> simp +arith
  | _ =>
    simp only [Shape.children] at h
    grind [→ List.sizeOf_lt_of_mem]

private theorem sizeOf_lt_node {o : Option NodeId} {s : Shape Tree} {r : Option Range} {c : Tree}
    (h : c ∈ s.children) : sizeOf c < sizeOf (Tree.node o s r) := by
  have := sizeOf_lt_of_mem h
  simp only [node.sizeOf_spec]
  omega

/-- Induction over trees. -/
@[induction_eliminator]
theorem induct {P : Tree → Prop}
    (node : ∀ (origin : Option NodeId) (shape : Shape Tree) (range : Option Range),
      (∀ c ∈ shape.children, P c) → P (.node origin shape range)) (t : Tree) : P t :=
  match t with
  | .node origin shape range => node origin shape range fun c _ => induct node c
termination_by sizeOf t
decreasing_by exact sizeOf_lt_node ‹_›

/-- The value of a tree under an algebra that gives the value of a construct from its children and
their values. -/
def para {β : Type} [Inhabited β] (alg : Option NodeId → Shape (Tree × β) → Option Range → β) :
    Tree → β
  | .node origin shape range =>
    alg origin (shape.refill (shape.children.attach.map fun c => (c.1, para alg c.1))) range
termination_by t => sizeOf t
decreasing_by exact sizeOf_lt_node c.2

/-- A paramorphism at a node gets the children with their results. -/
theorem para_node {β : Type} [Inhabited β]
    (alg : Option NodeId → Shape (Tree × β) → Option Range → β) (o : Option NodeId)
    (s : Shape Tree) (r : Option Range) :
    para alg (.node o s r) = alg o (s.map fun c => (c, para alg c)) r := by
  rw [para, Shape.map_eq_refill]
  simp

/-! ### Height -/

/-- The number of levels of a tree. -/
def height : Tree → Nat :=
  para fun _ shape _ => (shape.children.map Prod.snd).foldr max 0 + 1

theorem foldr_max_le_iff {ns : List Nat} {h : Nat} :
    ns.foldr max 0 ≤ h ↔ ∀ n ∈ ns, n ≤ h := by
  induction ns with
  | nil => simp
  | cons n ns ih => rw [List.foldr_cons, Nat.max_le, ih, List.forall_mem_cons]

/-- The height of a tree, by those of its children. -/
theorem height_le_succ_iff {o : Option NodeId} {s : Shape Tree} {r : Option Range} {h : Nat} :
    (Tree.node o s r).height ≤ h + 1 ↔ ∀ c ∈ s.children, c.height ≤ h := by
  rw [height, para_node, Nat.add_le_add_iff_right, foldr_max_le_iff]
  simp

theorem height_pos (t : Tree) : 0 < t.height := by
  obtain ⟨o, s, r⟩ := t
  rw [height, para_node]
  exact Nat.succ_pos _

/-- Children are lower than the tree. -/
theorem height_lt_of_mem_children {o : Option NodeId} {s : Shape Tree} {r : Option Range}
    {c : Tree} (hc : c ∈ s.children) : c.height < (Tree.node o s r).height := by
  obtain ⟨h, hh⟩ : ∃ h, (Tree.node o s r).height = h + 1 := by
    exact Nat.exists_eq_add_one.mpr (height_pos _)
  have := height_le_succ_iff.mp (Nat.le_of_eq hh) c hc
  omega

/-! ### Properties of all subtrees -/

/-- `p` holds of every subtree. -/
inductive Everywhere (p : Tree → Prop) : Tree → Prop where
  | node {o : Option NodeId} {s : Shape Tree} {r : Option Range} (root : p (.node o s r))
      (below : ∀ c ∈ s.children, Everywhere p c) : Everywhere p (.node o s r)

/-- A property holds everywhere iff it holds at the node and below it. -/
theorem everywhere_node {p : Tree → Prop} {o : Option NodeId} {s : Shape Tree}
    {r : Option Range} :
    Everywhere p (.node o s r) ↔ p (.node o s r) ∧ ∀ c ∈ s.children, Everywhere p c := by
  constructor
  · rintro ⟨root, below⟩
    exact ⟨root, below⟩
  · rintro ⟨root, below⟩
    exact .node root below

theorem Everywhere.root {p : Tree → Prop} {t : Tree} (h : Everywhere p t) : p t := by
  obtain ⟨root, -⟩ := h
  exact root

theorem Everywhere.child {p : Tree → Prop} {t c : Tree} (h : Everywhere p t)
    (hc : c ∈ t.shape.children) : Everywhere p c := by
  obtain ⟨-, below⟩ := h
  exact below c hc

theorem Everywhere.mono {p q : Tree → Prop} (hpq : ∀ t, p t → q t) {t : Tree}
    (h : Everywhere p t) : Everywhere q t := by
  induction h with
  | node root _ ih => exact .node (hpq _ root) ih

theorem Everywhere.and {p q : Tree → Prop} {t : Tree} (hp : Everywhere p t) (hq : Everywhere q t) :
    Everywhere (fun t => p t ∧ q t) t := by
  induction hp with
  | node root _ ih => exact .node ⟨root, hq.root⟩ fun c hc => ih c hc (hq.child hc)

section Violations

variable (p : Tree → Prop) [DecidablePred p]

/-- The subtrees of which `p` does not hold. -/
def violations : Tree → List Tree :=
  para fun origin shape range =>
    (if p (.node origin (shape.map Prod.fst) range) then []
      else [.node origin (shape.map Prod.fst) range]) ++ shape.children.flatMap Prod.snd

variable {p}

/-- The violations are those at the top and those below. -/
theorem violations_of (t : Tree) :
    violations p t = (if p t then [] else [t]) ++ t.shape.children.flatMap (violations p) := by
  obtain ⟨o, s, r⟩ := t
  have hself : (s.map fun c => (c, violations p c)).map Prod.fst = s := by
    rw [Shape.map_map]
    exact Shape.map_id s
  rw [violations, para_node, ← violations, hself, Shape.children_map, List.flatMap_map]
  rfl

/-- A property holds everywhere iff nothing violates it. -/
theorem everywhere_iff_violations {t : Tree} : t.Everywhere p ↔ violations p t = [] := by
  induction t with
  | node o s r ih =>
    rw [everywhere_node, violations_of, List.append_eq_nil_iff, List.flatMap_eq_nil_iff]
    have hroot : (if p (.node o s r) then [] else [Tree.node o s r]) = [] ↔ p (.node o s r) := by
      split <;> simp_all
    rw [hroot]
    exact and_congr_right fun _ => forall₂_congr ih

instance (t : Tree) : Decidable (t.Everywhere p) :=
  decidable_of_iff ((violations p t).isEmpty = true)
    (List.isEmpty_iff.trans everywhere_iff_violations.symm)

end Violations

end Tree

end Declass
