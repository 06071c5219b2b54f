import Declass.Proofs.Gather

/-!
# The pieces of generated code

The code that a use of `super` becomes is put together from the operands of the use and from
generated leaves. `Tree.Emits` speaks of collections that find nothing in those leaves; here the
leaves are listed, for collections that do find something in them. Such a collection has to pass
through calls and the like, and through operators that are applied to the result of a call. The one
other construct is the assignment that keeps a key in a temporary; it is left as it stands.

## Main definitions

* `Tree.isJoint` — the constructs that generated code is put together with
* `Tree.Passes` — a collection that passes through these
* `Tree.IsPiece` — a generated leaf

## Main results

* `Site.Direct.exists_pieces`, `Site.Bound.exists_pieces` — what a collection finds in the code of
  a use of `super`
-/

namespace Declass

variable {γ : Type}

namespace Tree

/-- The constructs that generated code is put together with, save the assignment to a temporary. -/
def isJoint (t : Tree) : Bool :=
  match t.shape with
  | .call .. | .member .. | .array _ | .paren _ | .comma _ => true
  | .binary left _ _ =>
    match left.shape with
    | .call .. | .unary .. => true
    | _ => false
  | .unary _ operand =>
    match operand.shape with
    | .call .. => true
    | _ => false
  | _ => false

/-- A collection that passes through the constructs of generated code. -/
structure Passes (φ : Tree → List γ) : Prop where
  joint : ∀ t : Tree, t.isJoint = true → φ t = t.shape.children.flatMap φ

theorem Passes.node {φ : Tree → List γ} (h : Passes φ) {o : Option NodeId} {s : Shape Tree}
    {r : Option Range} (hs : (Tree.node o s r).isJoint = true) :
    φ (.node o s r) = s.children.flatMap φ :=
  h.joint _ hs

/-- A generated leaf that is none of the names that generated code may not use. -/
structure IsPiece (names : String → Prop) (t : Tree) : Prop where
  isLeaf : t.shape.isLeaf = true
  range : t.range = none
  name : ∀ name, t.name? = some name → names name

section

variable {names : String → Prop}

theorem isPiece_ident {name : String} (h : names name) : (ident name).IsPiece names where
  isLeaf := rfl
  range := rfl
  name other hother := by
    obtain rfl : name = other := Option.some.inj hother
    exact h

theorem isPiece_text (value : String) : (text value).IsPiece names :=
  ⟨rfl, rfl, nofun⟩

theorem isPiece_one : (gen (.literal (.number "1"))).IsPiece names :=
  ⟨rfl, rfl, nofun⟩

end

end Tree

namespace Site

open Declass.Tree

variable {site : Site} {φ : Tree → List γ} {names : String → Prop}

/-- The leaves that come first in each call of a helper. -/
def header (site : Site) : List Tree :=
  [ident site.runtimeName, gen .thisExpr, ident site.className]

theorem isPiece_header (h : ∀ name, site.Names name → names name) :
    ∀ leaf ∈ site.header, leaf.IsPiece names := by
  simp only [header, List.forall_mem_cons]
  exact ⟨isPiece_ident (h _ (.inl rfl)), ⟨rfl, rfl, nofun⟩, isPiece_ident (h _ (.inr rfl)), nofun⟩

section

variable (h : Passes φ)

include h

theorem passes_helperCall (helper : Helper) (arguments : List Tree) (range : Option Range) :
    φ (site.helperCall helper arguments range) =
      site.header.flatMap φ ++ arguments.flatMap φ := by
  have hcallee : φ (.helper site.runtimeName helper) = φ (ident site.runtimeName) := by
    rw [Tree.helper, gen, h.node rfl]
    simp [Shape.children]
  rw [helperCall, h.node rfl]
  simp [Shape.children, hcallee, header]

theorem passes_superCall (key : Tree) (arguments : List Tree) (range : Option Range) :
    φ (site.superCall key arguments range) =
      site.header.flatMap φ ++ (φ key ++ arguments.flatMap φ) := by
  have harray : φ (gen (.array arguments)) = arguments.flatMap φ := h.node rfl
  rw [superCall, passes_helperCall h]
  simp [harray]

theorem passes_superGet (key : Tree) (range : Option Range) :
    φ (site.superGet key range) = (site.header ++ [key]).flatMap φ := by
  rw [superGet, passes_helperCall h, List.flatMap_append]

theorem passes_superSet (key value : Tree) (range : Option Range) :
    φ (site.superSet key value range) = (site.header ++ [key]).flatMap φ ++ φ value := by
  rw [superSet, passes_helperCall h]
  simp

/-- A key that is read and written is found twice. -/
theorem passes_compound (key : Tree) (operator : String) (value : Tree) (range : Option Range) :
    φ (site.compound key operator value range) =
      (site.header ++ [key] ++ (site.header ++ [key])).flatMap φ ++ φ value := by
  have hbinary (right : Tree) (range : Option Range) :
      φ (.node none (.binary (site.superGet key none) operator right) range) =
        (site.header ++ [key]).flatMap φ ++ φ right := by
    rw [h.node rfl]
    simp [Shape.children, passes_superGet h]
  rw [compound]
  split
  · simp [hbinary, passes_superSet h]
  · simp [passes_superSet h, gen, hbinary]

theorem passes_update (key : Tree) (operator : String) (range : Option Range) :
    φ (site.update key operator range) =
      (site.header ++ [key] ++ (site.header ++ [key]) ++
        [gen (.literal (.number "1"))]).flatMap φ := by
  have hunary : φ (gen (.unary "+" (site.superGet key none))) =
      (site.header ++ [key]).flatMap φ := by
    rw [gen, h.node rfl]
    simp [Shape.children, passes_superGet h]
  have hbinary : φ (gen (.binary (gen (.unary "+" (site.superGet key none))) operator
      (gen (.literal (.number "1"))))) =
      (site.header ++ [key] ++ [gen (.literal (.number "1"))]).flatMap φ := by
    rw [gen, h.node rfl]
    simp [Shape.children, hunary]
  rw [update, passes_superSet h, hbinary]
  simp

theorem passes_sequence (number : Nat) (key expression : Tree) (range : Option Range) :
    φ (sequence number key expression range) = φ (.assign (temp number) key) ++ φ expression := by
  have hcomma : φ (gen (.comma [.assign (temp number) key, expression])) =
      φ (.assign (temp number) key) ++ φ expression := by
    rw [gen, h.node rfl]
    simp [Shape.children]
  rw [sequence, h.node rfl]
  simp [Shape.children, hcomma]

end

/-- A key that is written down is an operand, or a generated string. -/
theorem Key.exists_pieces {key : MemberKey Tree} {keys : List Tree} {k : Tree}
    (written : Key key keys k) (names : String → Prop) :
    ∃ pieces : List Tree, (∀ leaf ∈ pieces, leaf.IsPiece names) ∧ [k] = pieces ++ keys := by
  cases written with
  | named => exact ⟨[.text _], List.forall_mem_singleton.mpr (isPiece_text _), rfl⟩
  | computed => exact ⟨[], nofun, rfl⟩

/-- **What a collection finds in the code of a use of `super`:** what it finds in generated leaves,
and what it finds in the operands. -/
theorem Direct.exists_pieces {range : Option Range} {use : SuperUse Tree} {operands : List Tree}
    {t : Tree} (code : site.Direct range use operands t) :
    ∃ pieces : List Tree, (∀ leaf ∈ pieces, leaf.IsPiece site.Names) ∧
      ∀ {γ : Type} {φ : Tree → List γ}, Passes φ →
        φ t = pieces.flatMap φ ++ operands.flatMap φ := by
  have hheader : ∀ leaf ∈ site.header, leaf.IsPiece site.Names := isPiece_header fun _ => id
  have htext (value : String) : ∀ leaf ∈ site.header ++ [text value], leaf.IsPiece site.Names :=
    List.forall_mem_append.mpr ⟨hheader, List.forall_mem_singleton.mpr (isPiece_text value)⟩
  have hkey {γ : Type} (φ : Tree → List γ) {keys pieces : List Tree} {k : Tree}
      (hk : [k] = pieces ++ keys) : φ k = pieces.flatMap φ ++ keys.flatMap φ := by
    rw [← List.flatMap_append, ← hk, List.flatMap_singleton]
  cases code with
  | call => exact ⟨_, htext "constructor", fun h => by simp [passes_superCall h]⟩
  | methodCall written | assign written | get written =>
    obtain ⟨pieces, hpieces, hk⟩ := written.exists_pieces site.Names
    refine ⟨site.header ++ pieces, List.forall_mem_append.mpr ⟨hheader, hpieces⟩, fun {γ φ} h => ?_⟩
    simp [passes_superCall h, passes_superSet h, passes_superGet h, hkey φ hk]
  | @compound _ _ _ name =>
    exact ⟨_, List.forall_mem_append.mpr ⟨htext name, htext name⟩, fun h => by
      simp [passes_compound h]⟩
  | @update _ name =>
    refine ⟨_, List.forall_mem_append.mpr ⟨List.forall_mem_append.mpr ⟨htext name, htext name⟩,
      List.forall_mem_singleton.mpr isPiece_one⟩, fun h => by simp [passes_update h]⟩

/-- The same for a use that keeps its key in a temporary. -/
theorem Bound.exists_pieces {range : Option Range} {number : Nat} {use : SuperUse Tree}
    {key t : Tree} {rest : List Tree} (code : site.Bound range number use key rest t) :
    ∃ pieces : List Tree,
      (∀ leaf ∈ pieces, leaf.IsPiece fun name => site.Names name ∨ name = Temps.name number) ∧
      ∀ {γ : Type} {φ : Tree → List γ}, Passes φ →
        φ t = φ (.assign (temp number) key) ++ (pieces.flatMap φ ++ rest.flatMap φ) := by
  have hkey : ∀ leaf ∈ site.header ++ [temp number],
      leaf.IsPiece fun name => site.Names name ∨ name = Temps.name number :=
    List.forall_mem_append.mpr
      ⟨isPiece_header fun _ => .inl, List.forall_mem_singleton.mpr (isPiece_ident (.inr rfl))⟩
  have htwice := List.forall_mem_append.mpr ⟨hkey, hkey⟩
  cases code with
  | compound =>
    exact ⟨_, htwice, fun h => by rw [passes_sequence h, passes_compound h, List.flatMap_singleton]⟩
  | update =>
    refine ⟨_, List.forall_mem_append.mpr ⟨htwice, List.forall_mem_singleton.mpr isPiece_one⟩,
      fun h => ?_⟩
    rw [passes_sequence h, passes_update h, List.flatMap_nil, List.append_nil]

end Site

end Declass
