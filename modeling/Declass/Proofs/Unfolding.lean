import Mathlib.Logic.Relation
import Mathlib.Data.Fintype.EquivFin
import Declass.Proofs.Tree

/-!
# The tree below a node

A node of a store denotes a tree if no index below it dangles and no path below it comes back to
where it was. Being of this kind (`Grounded`) is an inductive property, so a proof about a node goes
by induction on what is below it; that it is the same as having no dangling index and no cycle is a
theorem.

Stores only grow. `s ≤ s'` says that all nodes of `s` are in `s'` where they were; the tree below a
node of `s` is then the same in both.

## Main definitions

* `Store.Child`, `Store.Reaches`, `Store.Closed`, `Store.Acyclic`
* `Store.Grounded` — the node denotes a tree
* `Store.tree` — the tree, its leaves marked if they are older than a given size of the store
* `Store.Denotes` — a node with the tree it denotes
* `Store.Extends` — a store that has grown by nodes which refer to older ones

## Main results

* `Store.grounded_iff` — a node is grounded iff what it reaches is closed and acyclic
* `Store.Grounded.height_tree_le` — the tree is no higher than the store is large
* `Store.Denotes.mono`, `Store.denotes_push` — growing stores
-/

namespace Declass

namespace Shape

variable {α : Type}

/-- The constructs without parts, the word `super` left aside. -/
def isLeaf : Shape α → Bool
  | .emptyStatement | .binding _ | .identifier _ | .thisExpr | .literal _ => true
  | _ => false

/-- A leaf has no children. -/
theorem children_eq_nil_of_isLeaf {s : Shape α} (h : s.isLeaf) : s.children = [] := by
  cases s <;> simp_all [isLeaf, children]

end Shape

namespace Store

/-! ### Reachability -/

/-- `b` is a child of the node at `a`. -/
def Child (s : Store) (a b : NodeId) : Prop :=
  ∃ node, s.get? a = some node ∧ b ∈ node.shape.children

/-- `b` is reached from `a` along children. -/
def Reaches (s : Store) : NodeId → NodeId → Prop :=
  Relation.ReflTransGen s.Child

/-- No index reached from `root` dangles. -/
def Closed (s : Store) (root : NodeId) : Prop :=
  ∀ id, s.Reaches root id → (s.get? id).isSome

/-- No path from `root` comes back to where it was. -/
def Acyclic (s : Store) (root : NodeId) : Prop :=
  ∀ id, s.Reaches root id → ¬ Relation.TransGen s.Child id id

/-- What is below the node at an index is a tree. -/
inductive Grounded (s : Store) : NodeId → Prop where
  | node {id : NodeId} {node : Node} (found : s.get? id = some node)
      (below : ∀ c ∈ node.shape.children, s.Grounded c) : s.Grounded id

/-- A grounded index has a node, and so have its children. -/
theorem Grounded.exists_node {s : Store} {id : NodeId} (h : s.Grounded id) :
    ∃ node, s.get? id = some node ∧ ∀ c ∈ node.shape.children, s.Grounded c := by
  obtain ⟨found, below⟩ := h
  exact ⟨_, found, below⟩

/-- What is below a grounded index is grounded. -/
theorem Grounded.of_mem_children {s : Store} {id : NodeId} {node : Node} (h : s.Grounded id)
    (found : s.get? id = some node) {c : NodeId} (hc : c ∈ node.shape.children) :
    s.Grounded c := by
  obtain ⟨node', found', below⟩ := h.exists_node
  obtain rfl : node' = node := Option.some.inj (found'.symm.trans found)
  exact below c hc

theorem Grounded.child {s : Store} {a b : NodeId} (h : s.Grounded a) (hc : s.Child a b) :
    s.Grounded b := by
  obtain ⟨node, found, hb⟩ := hc
  exact h.of_mem_children found hb

theorem Grounded.reaches {s : Store} {a b : NodeId} (h : s.Grounded a) (hr : s.Reaches a b) :
    s.Grounded b := by
  induction hr with
  | refl => exact h
  | tail _ hc ih => exact ih.child hc

/-- A grounded index is in the store. -/
theorem Grounded.index_lt {s : Store} {id : NodeId} (h : s.Grounded id) : id.index < s.size := by
  obtain ⟨node, found, -⟩ := h.exists_node
  rw [← isSome_get?_iff, found]
  rfl

theorem Grounded.not_transGen_self {s : Store} {id : NodeId} (h : s.Grounded id) :
    ¬ Relation.TransGen s.Child id id := by
  -- A cycle through a node passes through one of its children, where there is none by induction.
  induction h with
  | node found _ ih =>
    intro cycle
    obtain ⟨c, hc, hr⟩ := Relation.TransGen.head'_iff.mp cycle
    have hmem := hc
    obtain ⟨node', found', hmem⟩ := hmem
    obtain rfl := Option.some.inj (found'.symm.trans found)
    exact ih c hmem (Relation.TransGen.tail' hr hc)

/-- **A node denotes a tree iff what it reaches is closed and acyclic.** -/
theorem grounded_iff {s : Store} {root : NodeId} :
    s.Grounded root ↔ s.Closed root ∧ s.Acyclic root := by
  constructor
  · intro h
    refine ⟨fun id hr => ?_, fun id hr => (h.reaches hr).not_transGen_self⟩
    exact (isSome_get?_iff s id).mpr (h.reaches hr).index_lt
  · rintro ⟨closed, acyclic⟩
    -- The strict descendant relation on the finitely many nodes reached is well-founded.
    let below : { id // s.Reaches root id } → { id // s.Reaches root id } → Prop :=
      fun b a => Relation.TransGen s.Child a.1 b.1
    have finite : Finite { id // s.Reaches root id } := by
      refine Finite.of_injective
        (fun id => (⟨id.1.index, (isSome_get?_iff s id.1).mp (closed id.1 id.2)⟩ : Fin s.size)) ?_
      intro a b hab
      exact Subtype.ext (NodeId.ext (by simpa using hab))
    have trans : IsTrans _ below := ⟨fun _ _ _ hba hcb => hcb.trans hba⟩
    have irrefl : Std.Irrefl below := ⟨fun a => acyclic a.1 a.2⟩
    have wf : WellFounded below := Finite.wellFounded_of_trans_of_irrefl below
    suffices ∀ a : { id // s.Reaches root id }, s.Grounded a.1 from this ⟨root, .refl⟩
    intro a
    induction a using wf.induction with
    | _ a ih =>
      obtain ⟨node, found⟩ := Option.isSome_iff_exists.mp (closed a.1 a.2)
      refine .node found fun c hc => ?_
      have step : s.Child a.1 c := ⟨node, found, hc⟩
      exact ih ⟨c, a.2.tail step⟩ (.single step)

/-! ### The bound on the height

`Fits h id` is `Grounded id` with at most `h` levels. It is decidable, and whatever fits at all fits
into as many levels as the store has nodes: along a longest path the number of levels below a node
goes down one by one, so no node occurs twice. -/

/-- What is below the node at an index is a tree of at most `height` levels. -/
def Fits (s : Store) : Nat → NodeId → Prop
  | 0, _ => False
  | height + 1, id => ∃ node ∈ s.get? id, ∀ c ∈ node.shape.children, s.Fits height c

instance decidableFits (s : Store) : ∀ (height : Nat) (id : NodeId), Decidable (s.Fits height id)
  | 0, _ => inferInstanceAs (Decidable False)
  | height + 1, id =>
    have := s.decidableFits height
    inferInstanceAs (Decidable (∃ node ∈ s.get? id, ∀ c ∈ node.shape.children, s.Fits height c))

theorem Fits.succ {s : Store} {h : Nat} : ∀ {id : NodeId}, s.Fits h id → s.Fits (h + 1) id := by
  induction h with
  | zero => intro _ hf; exact hf.elim
  | succ h ih =>
    rintro id ⟨node, found, below⟩
    exact ⟨node, found, fun c hc => ih (below c hc)⟩

theorem Fits.mono {s : Store} {h h' : Nat} {id : NodeId} (hf : s.Fits h id) (hle : h ≤ h') :
    s.Fits h' id := by
  induction hle with
  | refl => exact hf
  | step _ ih => exact ih.succ

theorem Fits.grounded {s : Store} {h : Nat} : ∀ {id : NodeId}, s.Fits h id → s.Grounded id := by
  induction h with
  | zero => intro _ hf; exact hf.elim
  | succ h ih =>
    rintro id ⟨node, found, below⟩
    exact .node found fun c hc => ih (below c hc)

theorem Fits.index_lt {s : Store} {h : Nat} {id : NodeId} (hf : s.Fits h id) :
    id.index < s.size :=
  hf.grounded.index_lt

theorem Grounded.exists_fits {s : Store} {id : NodeId} (hg : s.Grounded id) :
    ∃ h, s.Fits h id := by
  induction hg with
  | @node id node found _ ih =>
    -- The children fit into the greatest of the heights that induction gives for them.
    choose! height hfits using ih
    refine ⟨(node.shape.children.map height).foldr max 0 + 1, node, found, fun c hc => ?_⟩
    refine (hfits c hc).mono ?_
    exact Tree.foldr_max_le_iff.mp le_rfl _ (List.mem_map_of_mem hc)

/-- If a node needs `j + 1` levels, then every smaller number of levels is what some node needs. -/
theorem exists_fits_exactly {s : Store} {j : Nat} : ∀ {id : NodeId}, s.Fits (j + 1) id →
    ¬ s.Fits j id → ∀ i ≤ j, ∃ a, s.Fits (i + 1) a ∧ ¬ s.Fits i a := by
  induction j with
  | zero =>
    intro id hf hn i hi
    obtain rfl : i = 0 := Nat.le_zero.mp hi
    exact ⟨id, hf, hn⟩
  | succ j ih =>
    intro id hf hn i hi
    rcases Nat.lt_or_ge j i with hji | hij
    · obtain rfl : i = j + 1 := by omega
      exact ⟨id, hf, hn⟩
    · obtain ⟨node, found, below⟩ := hf
      obtain ⟨c, hc, hcn⟩ : ∃ c ∈ node.shape.children, ¬ s.Fits j c := by
        by_contra hall
        push Not at hall
        exact hn ⟨node, found, hall⟩
      exact ih (below c hc) hcn i hij

/-- **No tree in a store has more levels than the store has nodes.** -/
theorem Grounded.fits {s : Store} {id : NodeId} (hg : s.Grounded id) : s.Fits s.size id := by
  by_contra hn
  obtain ⟨h, hf⟩ := hg.exists_fits
  obtain ⟨j, hj, hfj, hnj⟩ : ∃ j, s.size ≤ j ∧ s.Fits (j + 1) id ∧ ¬ s.Fits j id := by
    induction h with
    | zero => exact hf.elim
    | succ h ih =>
      by_cases hfh : s.Fits h id
      · exact ih hfh
      · refine ⟨h, ?_, hf, hfh⟩
        by_contra hlt
        exact hn (hf.mono (by omega))
  -- One node for each of the `size + 1` heights, all different.
  have hex : ∀ i : Fin (s.size + 1), ∃ a, s.Fits (i + 1) a ∧ ¬ s.Fits i a :=
    fun i => exists_fits_exactly hfj hnj i (by omega)
  choose a ha hna using hex
  have inj : Function.Injective fun i => (⟨(a i).index, (ha i).index_lt⟩ : Fin s.size) := by
    intro i k hik
    have hak : a i = a k := NodeId.ext (by simpa using hik)
    by_contra hne
    rcases lt_or_gt_of_ne (Fin.val_ne_of_ne hne) with hlt | hlt
    · exact hna k (hak ▸ (ha i).mono (by omega))
    · exact hna i (hak ▸ (ha k).mono (by omega))
  have hcard := Fintype.card_le_of_injective _ inj
  rw [Fintype.card_fin, Fintype.card_fin] at hcard
  omega

/-! ### The tree -/

/-- The mark of the node `id`: itself, if it is a leaf among the first `n` nodes. -/
def originOf {α : Type} (n : Nat) (id : NodeId) (shape : Shape α) : Option NodeId :=
  if id.index < n ∧ shape.isLeaf then some id else none

/-- The first `height` levels of the tree below the node at an index. -/
def treeTo (s : Store) (n : Nat) : Nat → NodeId → Tree
  | 0, _ => default
  | height + 1, id =>
    match s.get? id with
    | some node =>
      .node (originOf n id node.shape) (node.shape.map (s.treeTo n height)) node.range
    | none => default

/-- The tree below the node at an index. Leaves among the first `n` nodes are marked. -/
def tree (s : Store) (n : Nat) (id : NodeId) : Tree :=
  s.treeTo n s.size id

variable {s s' : Store} {n : Nat} {id : NodeId}

theorem treeTo_eq_of_fits : ∀ {h h' : Nat} {id : NodeId}, s.Fits h id → h ≤ h' →
    s.treeTo n h' id = s.treeTo n h id := by
  intro h
  induction h with
  | zero => intro _ _ hf; exact hf.elim
  | succ h ih =>
    rintro (_ | h') id ⟨node, found, below⟩ hle
    · omega
    · rw [Option.mem_def] at found
      simp only [treeTo, found]
      congr 1
      exact Shape.map_congr fun c hc => ih (below c hc) (by omega)

/-- The tree of a node is the shape of the node over the trees of its children. -/
theorem Grounded.tree_eq (hg : s.Grounded id) {node : Node} (found : s.get? id = some node) :
    s.tree n id = .node (originOf n id node.shape) (node.shape.map (s.tree n)) node.range := by
  have hf := hg.fits
  obtain ⟨k, hk⟩ : ∃ k, s.size = k + 1 :=
    Nat.exists_eq_add_one.mpr (Nat.lt_of_le_of_lt (Nat.zero_le _) hg.index_lt)
  have htree (a : NodeId) : s.tree n a = s.treeTo n (k + 1) a := by rw [tree, hk]
  rw [hk] at hf
  obtain ⟨node', found', below⟩ := hf
  obtain rfl : node' = node := Option.some.inj (found'.symm.trans found)
  simp only [htree id, treeTo, found]
  congr 1
  refine Shape.map_congr fun c hc => ?_
  rw [htree, treeTo_eq_of_fits (below c hc) (Nat.le_succ k)]

/-- The name of a tree is that of its node. -/
theorem Grounded.name?_tree (hg : s.Grounded id) {node : Node} (found : s.get? id = some node) :
    (s.tree n id).name? = node.shape.name? := by
  rw [hg.tree_eq found, Tree.name?, Tree.shape_node]
  cases node.shape <;> rfl

/-- A tree is no higher than the store has nodes. -/
theorem Grounded.height_tree_le (hg : s.Grounded id) : (s.tree n id).height ≤ s.size := by
  suffices ∀ (h : Nat) (id : NodeId), s.Fits h id → (s.tree n id).height ≤ h from
    this s.size id hg.fits
  intro h
  induction h with
  | zero => intro _ hf; exact hf.elim
  | succ h ih =>
    rintro id ⟨node, found, below⟩
    have hg : s.Grounded id := .node found fun c hc => (below c hc).grounded
    rw [hg.tree_eq found, Tree.height_le_succ_iff, Shape.children_map]
    intro t ht
    obtain ⟨c, hc, rfl⟩ := List.mem_map.mp ht
    exact ih c (below c hc)

/-- What holds of the trees of all nodes reached from a node holds everywhere in its tree. -/
theorem Grounded.everywhere {p : Tree → Prop} (hg : s.Grounded id)
    (h : ∀ a node, s.Reaches id a → s.get? a = some node → p (s.tree n a)) :
    (s.tree n id).Everywhere p := by
  induction hg with
  | @node id node found below ih =>
    have hroot := h id node .refl found
    rw [(Grounded.node found below).tree_eq found] at hroot ⊢
    refine .node hroot fun t ht => ?_
    obtain ⟨c, hc, rfl⟩ := List.mem_map.mp (Shape.children_map _ _ ▸ ht)
    exact ih c hc fun a node' hr => h a node' (.head ⟨node, found, hc⟩ hr)

/-- What holds everywhere in the tree of a node holds everywhere in those of the nodes it
reaches. -/
theorem Grounded.everywhere_of_reaches {p : Tree → Prop} {a : NodeId} (hg : s.Grounded id)
    (h : (s.tree n id).Everywhere p) (hr : s.Reaches id a) : (s.tree n a).Everywhere p := by
  induction hr with
  | refl => exact h
  | tail hr hc ih =>
    obtain ⟨node, found, hc⟩ := hc
    rw [(hg.reaches hr).tree_eq found] at ih
    exact ih.child (by simpa using List.mem_map_of_mem hc)

/-! ### Growing stores -/

instance : Preorder Store where
  le s s' := ∀ id node, s.get? id = some node → s'.get? id = some node
  le_refl _ _ _ h := h
  le_trans _ _ _ h₁ h₂ id node h := h₂ id node (h₁ id node h)

/-- A store never gets smaller. -/
theorem size_le_of_le (hle : s ≤ s') : s.size ≤ s'.size := by
  by_contra hlt
  have hsome : (s.get? ⟨s'.size⟩).isSome := (isSome_get?_iff _ _).mpr (by simpa using hlt)
  obtain ⟨node, found⟩ := Option.isSome_iff_exists.mp hsome
  have hsome' : (s'.get? ⟨s'.size⟩).isSome := by rw [hle _ _ found]; rfl
  exact absurd ((isSome_get?_iff _ _).mp hsome') (Nat.lt_irrefl _)

/-- A new node is added behind the others. -/
theorem le_push (s : Store) (node : Node) : s ≤ s.push node := by
  intro id node' found
  rw [get?_push, if_neg ?_]
  · exact found
  · rintro rfl
    have := (isSome_get?_iff s s.nextId).mp (by rw [found]; rfl)
    simp [nextId] at this

/-- `s'` has the nodes of `s` where they were, and its other nodes refer to nodes before them. -/
structure Extends (s s' : Store) : Prop where
  le : s ≤ s'
  descends : ∀ id node, s.size ≤ id.index → s'.get? id = some node →
    ∀ c ∈ node.shape.children, c.index < id.index

theorem Extends.refl (s : Store) : s.Extends s where
  le := le_rfl
  descends id node hid found := by
    have hlt := (isSome_get?_iff s id).mp (by rw [found]; rfl)
    exact absurd hlt (Nat.not_lt.mpr hid)

theorem Extends.trans {s'' : Store} (h₁ : s.Extends s') (h₂ : s'.Extends s'') : s.Extends s'' where
  le := h₁.le.trans h₂.le
  descends id node hid found := by
    rcases Nat.lt_or_ge id.index s'.size with hlt | hge
    · obtain ⟨node', found'⟩ := Option.isSome_iff_exists.mp ((isSome_get?_iff s' id).mpr hlt)
      obtain rfl := Option.some.inj ((h₂.le id node' found').symm.trans found)
      exact h₁.descends id node' hid found'
    · exact h₂.descends id node hge found

/-- To push a node whose children are there is to extend the store. -/
theorem extends_push {node : Node} (below : ∀ c ∈ node.shape.children, c.index < s.size) :
    s.Extends (s.push node) where
  le := le_push s node
  descends id node' hid found := by
    rw [get?_push] at found
    split at found
    case isTrue hnext =>
      obtain rfl := Option.some.inj found
      exact fun c hc => hnext ▸ below c hc
    case isFalse => exact (Extends.refl s).descends id node' hid found

theorem Grounded.mono (hg : s.Grounded id) (hle : s ≤ s') : s'.Grounded id := by
  induction hg with
  | node found _ ih => exact .node (hle _ _ found) ih

theorem Grounded.tree_mono (hg : s.Grounded id) (hle : s ≤ s') :
    s'.tree n id = s.tree n id := by
  induction hg with
  | node found below ih =>
    have hg := Grounded.node found below
    rw [hg.tree_eq found, (hg.mono hle).tree_eq (hle _ _ found)]
    congr 1
    exact Shape.map_congr ih

/-- The node at `id` denotes the tree `t`, its leaves marked if among the first `n` nodes. -/
structure Denotes (s : Store) (n : Nat) (id : NodeId) (t : Tree) : Prop where
  grounded : s.Grounded id
  tree_eq : s.tree n id = t

theorem Denotes.mono {t : Tree} (hd : s.Denotes n id t) (hle : s ≤ s') : s'.Denotes n id t :=
  ⟨hd.grounded.mono hle, (hd.grounded.tree_mono hle).trans hd.tree_eq⟩

theorem Grounded.denotes (hg : s.Grounded id) : s.Denotes n id (s.tree n id) :=
  ⟨hg, rfl⟩

/-- The tree of a node is made of the trees of its children. -/
theorem Denotes.exists_node {t : Tree} (hd : s.Denotes n id t) :
    ∃ node, s.get? id = some node ∧ (∀ c ∈ node.shape.children, s.Grounded c) ∧
      t = .node (originOf n id node.shape) (node.shape.map (s.tree n)) node.range := by
  obtain ⟨hg, rfl⟩ := hd
  obtain ⟨node, found, below⟩ := hg.exists_node
  exact ⟨node, found, below, hg.tree_eq found⟩

/-- What a node says for a name is what its tree says. -/
theorem Denotes.identifierText_eq {t : Tree} (h : s.Denotes n id t) :
    s.identifierText id = match t.name? with
      | some name => .ok name
      | none => .error (.unexpectedNode "identifier" t.shape.kind) := by
  obtain ⟨⟨shape, range⟩, found, -, rfl⟩ := h.exists_node
  simp only [identifierText, node, found, Tree.name?, Tree.shape_node]
  cases shape <;> rfl

/-- A node pushed onto a store denotes the tree of its shape, and bears no mark. -/
theorem denotes_push (node : Node) (hn : n ≤ s.size)
    (below : ∀ c ∈ node.shape.children, s.Grounded c) :
    (s.push node).Denotes n s.nextId (.node none (node.shape.map (s.tree n)) node.range) := by
  have found : (s.push node).get? s.nextId = some node := by simp [get?_push]
  have hg : (s.push node).Grounded s.nextId :=
    .node found fun c hc => (below c hc).mono (le_push s node)
  refine ⟨hg, ?_⟩
  rw [hg.tree_eq found]
  congr 1
  · rw [originOf, if_neg]
    simp [nextId]
    omega
  · exact Shape.map_congr fun c hc => (below c hc).tree_mono (le_push s node)

end Store

end Declass
