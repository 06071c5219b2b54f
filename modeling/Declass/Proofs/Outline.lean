import Declass.Proofs.Layout
import Declass.Proofs.Pieces

/-!
# Outlines

The outline of a construct is the row of its pieces with its children in their places. It says what
`Shape.text` prints, less the depth of the indentation: blanks are a gap, whatever their number.
With the pieces of the children put in, the outline is a row of pieces, and so each tree has one.

One choice of the printer is made by text that is printed already: the first part of a loop is given
a semicolon unless its text ends with one. An outline is therefore made for a given answer to the
question which children end with a semicolon, and the answer for a tree is read off its pieces.

## Main definitions

* `Outline`, `Outline.pieces`
* `Shape.outline` — the outline of a construct
* `Tree.pieces` — the pieces of a tree

## Main results

* `Shape.spells_text` — the text of a construct is spelled by the pieces of its outline
-/

namespace Declass

variable {α : Type}

/-! ### Outlines of constructs -/

/-- Pieces, and children in their places. -/
abbrev Outline (α : Type) := List (Piece ⊕ α)

namespace Outline

/-- Pieces without a child. -/
def fixed (ps : List Piece) : Outline α :=
  ps.map .inl

/-- Children, with `separator` and a gap behind each but the last. -/
def separated (separator : List Piece) (as : List α) : Outline α :=
  (fixed (separator ++ [.gap])).intercalate (as.map fun a => [.inr a])

/-- Children between parentheses. -/
def parenthesized (as : List α) : Outline α :=
  fixed [.token "("] ++ separated [.token ","] as ++ fixed [.token ")"]

/-- Children between braces, each on a line of its own. -/
def braced (separator : List Piece) (as : List α) : Outline α :=
  if as.isEmpty then fixed [.token "\x7b", .token "\x7d"]
  else fixed [.token "\x7b", .gap] ++ separated separator as ++ fixed [.gap, .token "\x7d"]

/-- `lead` and a child, or nothing without the child. -/
def optionally (lead : List Piece) : Option α → Outline α
  | some a => fixed lead ++ [.inr a]
  | none => []

/-- The pieces of an outline, from the pieces of the children. -/
def pieces (below : α → List Piece) (outline : Outline α) : List Piece :=
  outline.flatMap (Sum.elim (fun p => [p]) below)

end Outline

open Outline in
/-- The outline of a construct. `ends a` says whether the child `a` ends with a semicolon. -/
def Shape.outline (ends : α → Bool) : Shape α → Outline α
  | .program statements => separated [] statements
  | .block statements => braced [] statements
  | .varStatement keyword declarators =>
    fixed [.token keyword.text] ++ fixed [.gap] ++ separated [.token ","] declarators ++
      fixed [.token ";"]
  | .declarator name value => [.inr name] ++ optionally [.mark "="] value
  | .functionDecl name parameters body =>
    fixed [.token "function", .gap] ++ [.inr name] ++ parenthesized parameters ++ fixed [.gap] ++
      [.inr body]
  | .classDecl name heritage members =>
    fixed [.token "class", .gap] ++ [.inr name] ++ optionally [.mark "extends"] heritage ++
      fixed [.gap] ++ braced [] members
  | .classExpr name heritage members =>
    fixed [.token "class"] ++ optionally [.gap] name ++ optionally [.mark "extends"] heritage ++
      fixed [.gap] ++ braced [] members
  | .exprStatement expression => [.inr expression] ++ fixed [.token ";"]
  | .returnStatement expression =>
    fixed [.token "return"] ++ optionally [.gap] expression ++ fixed [.token ";"]
  | .ifStatement condition consequent alternative =>
    fixed [.token "if", .gap, .token "("] ++ [.inr condition] ++ fixed [.token ")", .gap] ++
      [.inr consequent] ++ optionally [.mark "else"] alternative
  | .whileStatement condition body =>
    fixed [.token "while", .gap, .token "("] ++ [.inr condition] ++ fixed [.token ")", .gap] ++
      [.inr body]
  | .forStatement start condition step body =>
    fixed [.token "for", .gap, .token "("] ++
      (optionally [] start ++ fixed (if start.any ends then [] else [.token ";"])) ++
      optionally [.gap] condition ++ fixed [.token ";"] ++ optionally [.gap] step ++
      fixed [.token ")", .gap] ++ [.inr body]
  | .throwStatement expression =>
    fixed [.token "throw", .gap] ++ [.inr expression] ++ fixed [.token ";"]
  | .tryStatement body handler finalizer =>
    fixed [.token "try", .gap] ++ [.inr body] ++ optionally [.gap] handler ++
      optionally [.mark "finally"] finalizer
  | .catchClause caught body =>
    fixed [.token "catch", .gap, .token "("] ++
    [.inr caught] ++ fixed [.token ")", .gap] ++ [.inr body]
  | .emptyStatement => fixed [.token ";"]
  | .binding name => fixed [.token name]
  | .parameter name value rest =>
    fixed (if rest then [.token "..."] else []) ++ [.inr name] ++ optionally [.mark "="] value
  | .identifier name => fixed [.token name]
  | .thisExpr => fixed [.token "this"]
  | .superExpr => fixed [.token "super"]
  | .literal value => fixed [.token value.display]
  | .array elements => fixed [.token "["] ++ separated [.token ","] elements ++ fixed [.token "]"]
  | .object properties => braced [.token ","] properties
  | .property name value => fixed [.token name.display] ++ fixed [.token ":", .gap] ++ [.inr value]
  | .method name parameters body =>
    fixed [.token name.display] ++ parenthesized parameters ++ fixed [.gap] ++ [.inr body]
  | .getter name body =>
    fixed [.token "get", .gap] ++ fixed [.token name.display] ++
      fixed [.token "(", .token ")", .gap] ++ [.inr body]
  | .setter name incoming body =>
    fixed [.token "set", .gap] ++ fixed [.token name.display] ++
      fixed [.token "("] ++ [.inr incoming] ++
      fixed [.token ")", .gap] ++ [.inr body]
  | .functionExpr name parameters body =>
    fixed [.token "function", .gap] ++ optionally [] name ++
      parenthesized parameters ++ fixed [.gap] ++
      [.inr body]
  | .arrow parameters body => parenthesized parameters ++ fixed [.mark "=>"] ++ [.inr body]
  | .call callee arguments => [.inr callee] ++ parenthesized arguments
  | .newExpr callee arguments =>
    fixed [.token "new", .gap] ++ [.inr callee] ++ parenthesized arguments
  | .member target name => [.inr target] ++ fixed [.access name]
  | .lookup target index =>
    [.inr target] ++ fixed [.token "["] ++ [.inr index] ++ fixed [.token "]"]
  | .binary left operator right => [.inr left] ++ fixed [.mark operator] ++ [.inr right]
  | .unary operator operand =>
    fixed
      (if operator.toList.all Char.isAlpha then [.token operator, .gap] else [.token operator]) ++
      [.inr operand]
  | .conditional condition consequent alternative =>
    [.inr condition] ++ fixed [.mark "?"] ++
    [.inr consequent] ++ fixed [.mark ":"] ++ [.inr alternative]
  | .paren expression => fixed [.token "("] ++ [.inr expression] ++ fixed [.token ")"]
  | .comma expressions => separated [.token ","] expressions
  | .spread expression => fixed [.token "..."] ++ [.inr expression]

namespace Outline

variable {below : α → List Piece} {emit : Nat → α → String}

@[simp] theorem pieces_append (below : α → List Piece) (o o' : Outline α) :
    pieces below (o ++ o') = pieces below o ++ pieces below o' :=
  List.flatMap_append

@[simp] theorem pieces_fixed (below : α → List Piece) (ps : List Piece) :
    pieces below (fixed ps) = ps := by
  simp [pieces, fixed, List.flatMap_map]

@[simp] theorem pieces_child (below : α → List Piece) (a : α) :
    pieces below [.inr a] = below a := by
  simp [pieces]

theorem separated_cons_cons (separator : List Piece) (a b : α) (as : List α) :
    separated separator (a :: b :: as) =
      .inr a :: (fixed separator ++ .inl .gap :: separated separator (b :: as)) := by
  simp [separated, fixed]

theorem pieces_separated (below : α → List Piece) (separator : List Piece) (as : List α) :
    pieces below (separated separator as) =
      (separator ++ [Piece.gap]).intercalate (as.map below) := by
  induction as with
  | nil => rfl
  | cons a as ih =>
    cases as with
    | nil => simp [separated]
    | cons b as =>
      rw [List.map_cons, List.map_cons, List.intercalate_cons_cons, ← List.map_cons, ← ih]
      simp [separated_cons_cons, pieces, fixed, List.flatMap_map]

section Map

variable {β : Type} {below : β → List Piece} {f : α → β}

theorem pieces_parenthesized_map (as : List α) :
    pieces below (parenthesized (as.map f)) = pieces (below ∘ f) (parenthesized as) := by
  simp [parenthesized, pieces_separated]

theorem pieces_braced_map (separator : List Piece) (as : List α) :
    pieces below (braced separator (as.map f)) = pieces (below ∘ f) (braced separator as) := by
  cases as <;> simp [braced, pieces_separated]

theorem pieces_optionally_map (lead : List Piece) (o : Option α) :
    pieces below (optionally lead (o.map f)) = pieces (below ∘ f) (optionally lead o) := by
  cases o with
  | none => rfl
  | some a => simp [optionally]

end Map

/-! ### Texts -/

/-- A piece without the choice of blanks. -/
def plain : Piece → String
  | .token word => word
  | .access name => "." ++ name
  | .mark word => " " ++ word ++ " "
  | .gap => " "

theorem spells_space : Spells [.gap] " " :=
  .gap (List.cons_ne_nil ' ' []) (fun c hc => by rw [List.mem_singleton.mp hc]; rfl) .nil

theorem spells_plain (ps : List Piece) : Spells ps (String.join (ps.map plain)) := by
  induction ps with
  | nil => exact .nil
  | cons p ps ih =>
    have hp : Spells [p] (plain p) := by
      cases p with
      | token word =>
        have h : Spells [.token word] (word ++ "") := .token .nil
        simpa [plain] using h
      | access name =>
        have h : Spells [.access name] ("." ++ (name ++ "")) := .access .nil
        simpa [plain] using h
      | mark word =>
        have h : Spells [.mark word] (" " ++ (word ++ (" " ++ ""))) := .mark .nil
        simpa [plain, String.append_assoc] using h
      | gap => exact spells_space
    rw [List.map_cons, String.join_cons]
    exact hp.append ih

theorem spells_fixed {ps : List Piece} {text : String} (h : String.join (ps.map plain) = text) :
    Spells ps text :=
  h ▸ spells_plain ps

theorem spells_token (word : String) : Spells [.token word] word :=
  spells_fixed (by simp [plain])

theorem spells_newline (depth : Nat) : Spells [.gap] (Text.newline depth) := by
  have hspace : ∀ c ∈ '\n' :: List.replicate (4 * depth) ' ', Text.isSpace c = true := by
    intro c hc
    rcases List.mem_cons.mp hc with rfl | hc
    · rfl
    · rw [List.eq_of_mem_replicate hc]
      rfl
  simpa [Text.newline] using Spells.gap (List.cons_ne_nil _ _) hspace .nil

theorem spells_separated {separator : List Piece} {text : String} {as : List α} {emit : α → String}
    (hseparator : Spells (separator ++ [.gap]) text) (h : ∀ a ∈ as, Spells (below a) (emit a)) :
    Spells (pieces below (separated separator as)) (text.intercalate (as.map emit)) := by
  induction as with
  | nil => exact .nil
  | cons a as ih =>
    rw [List.forall_mem_cons] at h
    cases as with
    | nil => simpa [pieces_separated] using h.1
    | cons b bs =>
      have htail := ih h.2
      simp only [pieces_separated, List.map_cons, List.intercalate_cons_cons,
        String.intercalate_cons_cons] at htail ⊢
      exact (h.1.append hseparator).append htail

theorem spells_parenthesized {as : List α} {emit : α → String}
    (h : ∀ a ∈ as, Spells (below a) (emit a)) :
    Spells (pieces below (parenthesized as)) (Text.parenthesized (as.map emit)) := by
  rw [parenthesized, Text.parenthesized, pieces_append, pieces_append, pieces_fixed, pieces_fixed]
  exact ((spells_token "(").append (spells_separated (spells_fixed rfl) h)).append
    (spells_token ")")

theorem spells_braced {separator : List Piece} {text : String} {as : List α} {emit : α → String}
    (hseparator : Spells separator text) (depth : Nat) (h : ∀ a ∈ as, Spells (below a) (emit a)) :
    Spells (pieces below (braced separator as)) (Text.braced text depth (as.map emit)) := by
  cases as with
  | nil => exact spells_plain [.token "\x7b", .token "\x7d"]
  | cons a as =>
    have hopen := (spells_token "\x7b").append (spells_newline (depth + 1))
    have hclose := (spells_newline depth).append (spells_token "\x7d")
    have hinner := spells_separated (hseparator.append (spells_newline (depth + 1))) h
    have hall := (hopen.append hinner).append hclose
    rw [← String.append_assoc] at hall
    simp only [braced, Text.braced, List.isEmpty_cons, List.map_cons, Bool.false_eq_true, if_false,
      pieces_append, pieces_fixed]
    exact hall

theorem spells_optionally {lead : List Piece} {text : String} {o : Option α} {emit : α → String}
    (hlead : Spells lead text) (h : ∀ a ∈ o, Spells (below a) (emit a)) :
    Spells (pieces below (optionally lead o)) (Shape.optional emit text o) := by
  cases o with
  | none => exact .nil
  | some a =>
    rw [optionally, Shape.optional, pieces_append, pieces_fixed, pieces_child]
    exact hlead.append (h a rfl)

/-- The start of a loop has a semicolon of its own or is given one. -/
theorem spells_terminated {o : Option α} {emit : α → String} {ends : α → Bool}
    (h : ∀ a ∈ o, Spells (below a) (emit a))
    (hends : ∀ a ∈ o, (emit a).toList.getLast? = some ';' ↔ ends a = true) :
    Spells (pieces below (optionally [] o) ++ if o.any ends then [] else [.token ";"])
      (Text.terminated (Shape.optional emit "" o)) := by
  have hstart := spells_optionally .nil h
  cases o with
  | none => exact hstart.append (spells_token ";")
  | some a =>
    have hemit : Shape.optional emit "" (some a) = emit a := String.empty_append
    rw [hemit] at hstart ⊢
    rw [Text.terminated, Option.any_some]
    by_cases hend : ends a = true
    · rw [if_pos ((hends a rfl).mpr hend), if_pos hend, List.append_nil]
      exact hstart
    · rw [if_neg (mt (hends a rfl).mp hend), if_neg hend]
      exact hstart.append (spells_token ";")

end Outline

open Outline in
/-- **What is printed of a construct.** It is spelled by the outline, whatever the indentation. -/
theorem Shape.spells_text {s : Shape α} {below : α → List Piece} {emit : Nat → α → String}
    {ends : α → Bool} (h : ∀ c ∈ s.children, ∀ depth, Spells (below c) (emit depth c))
    (hends : ∀ c ∈ s.children, ∀ depth, (emit depth c).toList.getLast? = some ';' ↔ ends c = true)
    (depth : Nat) : Spells (pieces below (s.outline ends)) (s.text emit depth) := by
  unfold text
  cases s
  case program statements => exact spells_separated (spells_newline depth) fun a ha => h a ha depth
  case binary left operator right =>
    have hmark : Spells [.mark operator] (" " ++ operator ++ " ") := spells_fixed (by simp [plain])
    have hall := ((h left (by simp [children]) depth).append hmark).append
      (h right (by simp [children]) depth)
    simpa only [outline, pieces_append, pieces_child, pieces_fixed, String.append_assoc] using hall
  case member target name =>
    have haccess : Spells [.access name] ("." ++ name) := spells_fixed (by simp [plain])
    have hall := (h target (by simp [children]) depth).append haccess
    simpa only [outline, pieces_append, pieces_child, pieces_fixed, String.append_assoc] using hall
  case unary operator operand =>
    simp only [outline, pieces_append, pieces_child, pieces_fixed, Text.operator]
    refine .append ?_ (h operand (by simp [children]) depth)
    split
    · exact (spells_token operator).append spells_space
    · exact spells_token operator
  case parameter name value rest =>
    simp only [outline, pieces_append, pieces_child, pieces_fixed]
    refine (Spells.append ?_ (h name (by simp [children]) depth)).append
      (spells_optionally (spells_fixed rfl) fun a ha => h a (by simp_all [children]) depth)
    split
    · exact spells_token "..."
    · exact .nil
  case forStatement start condition step body =>
    simp only [outline, pieces_append, pieces_child, pieces_fixed]
    have hstart := spells_terminated (o := start) (fun a ha => h a (by simp_all [children]) depth)
      fun a ha => hends a (by simp_all [children]) depth
    have hcondition := spells_optionally (o := condition) spells_space fun a ha =>
      h a (by simp_all [children]) depth
    have hstep := spells_optionally (o := step) spells_space fun a ha =>
      h a (by simp_all [children]) depth
    have hopen : Spells [.token "for", .gap, .token "("] "for (" := spells_fixed rfl
    have hclose : Spells [.token ")", .gap] ") " := spells_fixed rfl
    exact (((((hopen.append hstart).append hcondition).append (spells_token ";")).append
      hstep).append
      hclose).append (h body (by simp [children]) depth)
  all_goals
    clear hends
    simp only [outline, pieces_append, pieces_child, pieces_fixed]
    repeat' first
      | with_reducible refine .append ?_ ?_
      | with_reducible refine spells_parenthesized fun a ha => ?_
      | with_reducible refine spells_optionally (spells_fixed ?_) fun a ha => ?_
      | with_reducible refine spells_braced (spells_fixed ?_) _ fun a ha => ?_
      | with_reducible refine spells_separated (spells_fixed ?_) fun a ha => ?_
      | with_reducible exact spells_token _
      | with_reducible refine h _ ?_ _
      | with_reducible refine spells_fixed ?_
    all_goals first
      | rfl
      | clear h
        simp_all [children]

/-! ### Trees -/

open Outline in
theorem Shape.pieces_outline_map {β : Type} (f : α → β) (below : β → List Piece) (ends : β → Bool)
    (s : Shape α) :
    pieces below ((s.map f).outline ends) = pieces (below ∘ f) (s.outline (ends ∘ f)) := by
  cases s <;>
    simp only [map, outline, pieces_append, pieces_child, pieces_fixed, pieces_separated,
      pieces_parenthesized_map, pieces_braced_map,
      pieces_optionally_map, List.map_map, Option.any_map,
      Function.comp_def]

namespace Tree

/-- Whether a row of pieces ends with a semicolon. -/
def endsStatement (ps : List Piece) : Bool :=
  ps.getLast? == some (.token ";")

/-- The pieces of a tree. -/
def pieces : Tree → List Piece :=
  para fun _ shape _ => Outline.pieces Prod.snd (shape.outline fun c => endsStatement c.2)

theorem pieces_node (o : Option NodeId) (s : Shape Tree) (r : Option Range) :
    (node o s r).pieces = Outline.pieces pieces (s.outline fun c => endsStatement c.pieces) := by
  rw [pieces, para_node, Shape.pieces_outline_map]
  rfl

end Tree

end Declass
