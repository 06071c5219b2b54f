import Declass.Proofs.Lowering

/-!
# The scaffold of lowered classes

Around the parts of a class the lowering puts a fixed set of constructs: the call that makes the
class, the object of its members, the statement that declares it, and the declarations of
temporaries. A property of constructs that is indifferent to what these are filled with (it is
`Lenient`) holds throughout a lowered class as soon as it holds throughout the parts. And a
collection that passes through these constructs (it is `Permeable`) finds in a lowered class what it
finds in the parts.

## Main definitions

* `Shape.isNeutral` — the constructs of the scaffold that bind nothing
* `Tree.Lenient` — a property that the scaffold has whatever it is filled with
* `Tree.Permeable` — a collection that passes through the scaffold

## Main results

* `Tree.Lenient.createClass`, `Tree.Lenient.declareClass`, `Tree.Lenient.assignTemp`
* `Tree.Lenient.declaring`, `Tree.Lenient.asProperty`
* `Tree.Permeable.createClass`, `Tree.Permeable.assignTemp`
* `Tree.Permeable.declaring`, `Tree.Permeable.asProperty`
-/

namespace Declass

/-- The constructs of the scaffold that bind nothing. -/
def Shape.isNeutral {α : Type} : Shape α → Bool
  | .call .. | .member .. | .object _ | .property .. | .paren _ | .block _ | .returnStatement _
  | .binding _ | .identifier _ | .literal _ => true
  | _ => false

theorem Shape.mem_children_mapBody {α : Type} {f : α → α} {s : Shape α} {c : α}
    (h : c ∈ (s.mapBody f).children) : c ∈ s.children ∨ ∃ body ∈ s.children, c = f body := by
  cases s with
  | functionDecl | functionExpr | arrow | method | getter | setter =>
    grind [Shape.mapBody, Shape.children]
  | _ => exact .inl h

namespace Tree

/-- The declaration of temporaries does not change what has them. -/
theorem ownsTemps_declaring (t : Tree) (temps : List Nat) :
    (t.declaring temps).shape.ownsTemps = t.shape.ownsTemps := by
  rw [declaring]
  split
  · rfl
  · rw [shape_node]
    cases t.shape <;> rfl

/-- A property that the constructs of the scaffold have whatever they are filled with, if their
variable statements begin with one of `words`. -/
structure Lenient (words : VarKeyword → Prop) (p : Tree → Prop) : Prop where
  neutral : ∀ t : Tree, t.shape.isNeutral = true → p t
  assign : ∀ number value, p (.assign (.temp number) value)
  declarator : ∀ o name value r, name.name?.isSome → p (.node o (.declarator name value) r)
  varStatement : ∀ o word declarators r, words word → p (.node o (.varStatement word declarators) r)
  program : ∀ o statements r, p (.node o (.program statements) r)
  body : ∀ o s r f, p (.node o s r) → p (.node none (s.mapBody f) r)
  expression : ∀ o name parameters body r r', p (.node o (.method name parameters body) r) →
    p (.node none (.functionExpr none parameters body) r')

namespace Lenient

variable {words : VarKeyword → Prop} {p : Tree → Prop} (h : Lenient words p)

include h

theorem everywhere_neutral {o : Option NodeId} {s : Shape Tree} {r : Option Range}
    (hs : s.isNeutral = true) (below : ∀ c ∈ s.children, c.Everywhere p) :
    (Tree.node o s r).Everywhere p :=
  .node (h.neutral _ hs) below

theorem ident (name : String) : (Tree.ident name).Everywhere p :=
  h.everywhere_neutral rfl (by simp [Shape.children])

theorem literal (value : Literal) : (gen (.literal value)).Everywhere p :=
  h.everywhere_neutral rfl (by simp [Shape.children])

theorem of_name? {t : Tree} {name : String} (hname : t.name? = some name) : t.Everywhere p := by
  obtain ⟨o, s, r⟩ := t
  cases s with
  | binding | identifier => exact h.everywhere_neutral rfl (by simp [Shape.children])
  | _ => cases hname

/-! ### Classes -/

/-- The call that creates a class adds nothing that breaks the property. -/
theorem createClass {options : Options} {properties : List Tree} {base : Option Tree}
    (hproperties : ∀ c ∈ properties, c.Everywhere p) (hbase : ∀ c ∈ base.toList, c.Everywhere p)
    (hasConstructor : Bool) (r : Option Range) :
    (Tree.createClass options properties hasConstructor base r).Everywhere p := by
  have hcallee : (helper options.runtimeName .createClass).Everywhere p :=
    h.everywhere_neutral rfl (List.forall_mem_singleton.mpr (h.ident _))
  have hobject : (gen (.object properties)).Everywhere p := h.everywhere_neutral rfl hproperties
  have hbaseArgument : (base.getD (gen (.literal .null))).Everywhere p := by
    cases base with
    | none => exact h.literal _
    | some base => exact hbase base (by simp)
  refine h.everywhere_neutral rfl ?_
  simp [Shape.children, hcallee, hobject, hbaseArgument, boolean, h.literal]

/-- The declaration of a class adds nothing that breaks the property. -/
theorem declareClass {options : Options}
    (hword : words (if options.blockBinding then .letWord else .varWord)) {name call : Tree}
    {c : String} (hname : name.name? = some c) (hcall : call.Everywhere p) (r : Option Range) :
    (Tree.declareClass options name call r).Everywhere p := by
  have hdeclarator : (Tree.node none (.declarator name (some call)) r).Everywhere p := by
    refine .node (h.declarator _ _ _ _ (by rw [hname]; rfl)) ?_
    simp [Shape.children, h.of_name? hname, hcall]
  exact .node (h.varStatement _ _ _ _ hword) (List.forall_mem_singleton.mpr hdeclarator)

/-- An assignment to a temporary does not break the property. -/
theorem assignTemp {value : Tree} (hvalue : value.Everywhere p) (number : Nat) (r : Option Range) :
    (Tree.node none (.paren (.assign (.temp number) value)) r).Everywhere p := by
  refine h.everywhere_neutral rfl (List.forall_mem_singleton.mpr (.node (h.assign number value) ?_))
  simp [Shape.children, temp, h.ident, hvalue]

/-- A member as a property of the object of members. -/
theorem asProperty {t : Tree} (ht : t.Everywhere p) (kind : MemberKind) :
    (t.asProperty kind).Everywhere p := by
  rw [Tree.asProperty]
  split
  case isFalse => exact ht
  case isTrue =>
    rw [constructorProperty]
    split
    case h_2 => exact ht
    case h_1 name parameters body hmethod =>
      obtain ⟨o, s, r⟩ := t
      obtain rfl : s = .method name parameters body := hmethod
      obtain ⟨hroot, hbelow⟩ := everywhere_node.mp ht
      refine h.everywhere_neutral rfl (List.forall_mem_singleton.mpr ?_)
      exact .node (h.expression _ _ _ _ _ _ hroot) hbelow

/-! ### Temporaries -/

theorem prepend {declaration body : Tree} (hdeclaration : declaration.Everywhere p)
    (hbody : body.Everywhere p) : (Tree.prepend declaration body).Everywhere p := by
  have hstatements : ∀ c ∈ body.statements, c.Everywhere p := by
    rw [statements]
    split
    case h_1 hblock => exact fun c hc => hbody.child (by rwa [hblock])
    case h_2 =>
      refine List.forall_mem_singleton.mpr (h.everywhere_neutral rfl ?_)
      exact List.forall_mem_singleton.mpr hbody
  exact h.everywhere_neutral rfl (List.forall_mem_cons.mpr ⟨hdeclaration, hstatements⟩)

/-- A function with another body. -/
theorem mapBody {o : Option NodeId} {s : Shape Tree} {r : Option Range}
    (ht : (Tree.node o s r).Everywhere p) {f : Tree → Tree}
    (hf : ∀ body : Tree, body.Everywhere p → (f body).Everywhere p) :
    (Tree.node none (s.mapBody f) r).Everywhere p := by
  obtain ⟨hroot, hbelow⟩ := everywhere_node.mp ht
  refine .node (h.body _ _ _ _ hroot) fun c hc => ?_
  rcases Shape.mem_children_mapBody hc with hc | ⟨body, hbody, rfl⟩
  · exact hbelow c hc
  · exact hf body (hbelow body hbody)

variable (hvar : words .varWord)

include hvar

/-- Declarations of temporaries do not break the property. -/
theorem declareTemps (temps : List Nat) : (Tree.declareTemps temps).Everywhere p := by
  refine .node (h.varStatement _ _ _ _ hvar) (List.forall_mem_map.mpr fun number _ => ?_)
  refine .node (h.declarator _ _ _ _ rfl) (List.forall_mem_singleton.mpr ?_)
  exact h.everywhere_neutral rfl (by simp [Shape.children])

/-- A program or a function with declarations of temporaries in it. -/
theorem declaring {t : Tree} (ht : t.Everywhere p) (temps : List Nat) :
    (t.declaring temps).Everywhere p := by
  rw [Tree.declaring]
  split
  case isTrue => exact ht
  case isFalse =>
    have hdeclaration := h.declareTemps hvar temps
    obtain ⟨o, s, r⟩ := t
    cases s with
    | program statements =>
      refine .node (h.program _ _ _) (List.forall_mem_cons.mpr ⟨hdeclaration, fun c hc => ?_⟩)
      exact ht.child hc
    | _ => exact h.mapBody ht fun _ => h.prepend hdeclaration

end Lenient

end Tree

/-! ### Collections -/

/-- The constructs of the scaffold that have parts, save assignments and the declaration of a
class. -/
def Shape.isScaffold {α : Type} : Shape α → Bool
  | .call .. | .member .. | .object _ | .property .. | .paren _ | .block _ | .returnStatement _
  | .declarator _ none | .varStatement .. => true
  | shape => shape.ownsTemps

/-- What has temporaries of its own is scaffolding. -/
theorem Shape.isScaffold_of_ownsTemps {α : Type} {s : Shape α} (h : s.ownsTemps = true) :
    s.isScaffold = true := by
  cases s <;> first | rfl | cases h

namespace Tree

variable {γ : Type}

/-- A collection that passes through the constructs of the scaffold and finds nothing in its
leaves. -/
structure Permeable (φ : Tree → List γ) : Prop where
  through : ∀ t : Tree, t.shape.isScaffold = true → φ t = t.shape.children.flatMap φ
  leaf : ∀ s : Shape Tree, s.isLeaf = true → φ (gen s) = []
  assign : ∀ number value, φ (.assign (.temp number) value) = φ value

namespace Permeable

variable {φ : Tree → List γ} (h : Permeable φ)

include h

theorem node {s : Shape Tree} (hs : s.isScaffold = true) (o : Option NodeId) (r : Option Range) :
    φ (.node o s r) = s.children.flatMap φ :=
  h.through (.node o s r) hs

/-- There is nothing to collect from declarations of temporaries. -/
theorem declareTemps (temps : List Nat) : φ (Tree.declareTemps temps) = [] := by
  have hdeclarator (number : Nat) :
      φ (gen (.declarator (gen (.binding (Temps.name number))) none)) = [] := by
    rw [gen, h.node rfl]
    simp [Shape.children, h.leaf (.binding _) rfl]
  rw [Tree.declareTemps, gen, h.node rfl]
  simp [Shape.children, List.flatMap_map, hdeclarator]

theorem prepend (temps : List Nat) (body : Tree) :
    φ (Tree.prepend (Tree.declareTemps temps) body) = φ body := by
  have hstatements : body.statements.flatMap φ = φ body := by
    rw [statements]
    split
    case h_1 hblock => rw [h.through body (by rw [hblock]; rfl), hblock, Shape.children]
    case h_2 => rw [List.flatMap_singleton, h.node rfl, Shape.children]; simp
  rw [Tree.prepend, h.node rfl]
  simp [Shape.children, h.declareTemps, hstatements]

/-- Declaring temporaries in a program or a function adds nothing. -/
theorem declaring {t : Tree} (owner : t.shape.ownsTemps = true) (temps : List Nat) :
    φ (t.declaring temps) = φ t := by
  have howner := (ownsTemps_declaring t temps).trans owner
  rw [h.through t (Shape.isScaffold_of_ownsTemps owner),
    h.through _ (Shape.isScaffold_of_ownsTemps howner), Tree.declaring]
  split
  case isTrue => rfl
  case isFalse =>
    rw [shape_node]
    cases hs : t.shape with
    | program | functionDecl | functionExpr | arrow | method | getter | setter =>
      simp [Shape.declaring, Shape.mapBody, Shape.children, h.prepend, h.declareTemps]
    | _ => rw [hs] at owner; cases owner

/-- A member as a property of the object of members. -/
theorem asProperty {t : Tree} {kind : MemberKind} (ht : MemberKind.ofShape? t.shape = some kind) :
    φ (t.asProperty kind) = φ t := by
  rw [Tree.asProperty]
  split
  case isFalse => rfl
  case isTrue hkind =>
    obtain ⟨o, s, r⟩ := t
    obtain ⟨name, parameters, body, rfl : s = _⟩ := isConstructor_of_ofShape? (hkind ▸ ht)
    have hfunction : φ (.node none (.functionExpr none parameters body) r) =
        φ (.node o (.method name parameters body) r) := by
      rw [h.node rfl, h.node rfl]
      rfl
    rw [constructorProperty, shape_node, h.node rfl]
    simp [Shape.children, hfunction]

/-- In the call that creates a class, the properties come before the base. -/
theorem createClass (options : Options) (properties : List Tree) (hasConstructor : Bool)
    (base : Option Tree) (r : Option Range) :
    φ (Tree.createClass options properties hasConstructor base r) =
      properties.flatMap φ ++ base.toList.flatMap φ := by
  have hspace : φ (ident options.runtimeName) = [] := h.leaf _ rfl
  have hcallee : φ (helper options.runtimeName .createClass) = [] := by
    rw [helper, gen, h.node rfl]
    simp [Shape.children, hspace]
  have hliteral (value : Literal) : φ (gen (.literal value)) = [] := h.leaf _ rfl
  have hobject : φ (gen (.object properties)) = properties.flatMap φ := h.node rfl none none
  rw [Tree.createClass, h.node rfl]
  cases base <;> simp [Shape.children, hcallee, hobject, hliteral, boolean]

/-- An assignment to a temporary has what the value has. -/
theorem assignTemp (number : Nat) (value : Tree) (r : Option Range) :
    φ (.node none (.paren (.assign (.temp number) value)) r) = φ value := by
  rw [h.node rfl]
  simp [Shape.children, h.assign]

end Permeable

end Tree

end Declass
