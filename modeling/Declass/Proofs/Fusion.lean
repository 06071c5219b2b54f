import Declass.Proofs.Operators
import Declass.Proofs.Outline

/-!
# Tokens that fuse in print

A printed text is read one longest token at a time, so two tokens without a blank between them can
be read as one. Where they cannot is a property of neighbours: a bracket, a comma, a semicolon and a
gap keep off whatever stands beside them, and in the outline of most constructs one of these stands
between a child and the next token. The exceptions are a prefix operator that is no word, with its
operand behind it, and the point of a member access, with its target in front of it. A sign there
fuses with the same sign, and the digits of a number take the point.

Both are real: the negation of the negation of `x` is printed as `--x`, and the member `x` of the
number `1` as `1.x`. The main theorem says that there is nothing else.

## Main definitions

* `Outline.Fitting` — each child is kept off by what stands beside it
* `Shape.isLexical` — the words that a construct holds are words of the language
* `Shape.Joins` — what a relation between neighbours has to meet at the seams of a construct
* `Tree.tokens` — the tokens of a tree
* `Tree.fuses` — two tokens fuse at the root of a tree

## Main results

* `Outline.isChain_pieces_iff`, `Shape.isChain_pieces_iff`, `Tree.Lexical.isChain_pieces_iff` — the
  neighbours in an outline, in a construct and in a tree
* `Store.text_tokens` — the text of a node is split into the tokens of its tree iff none of them
  fuse
-/

namespace Declass

variable {α : Type}

/-! ### Seams -/

namespace Outline

variable {below : α → List Piece} {R : Piece → Piece → Prop}

/-- Whether one of two parts of an outline is a piece that keeps the other off, whatever that is. -/
def fits (x y : Piece ⊕ α) : Bool :=
  x.elim Piece.opens (fun _ => false) || y.elim Piece.closes fun _ => false

/-- Each two parts that stand side by side are kept off. -/
def Fitting (o : Outline α) : Prop :=
  o.IsChain fun x y => fits x y = true

theorem fitting_nil : Fitting ([] : Outline α) :=
  List.isChain_nil

theorem fitting_singleton (x : Piece ⊕ α) : Fitting [x] :=
  List.isChain_singleton x

theorem fitting_cons_cons {x y : Piece ⊕ α} {o : Outline α} :
    Fitting (x :: y :: o) ↔ fits x y = true ∧ Fitting (y :: o) :=
  List.isChain_cons_cons

theorem fitting_cons {x : Piece ⊕ α} {o : Outline α} :
    Fitting (x :: o) ↔ (∀ y ∈ o.head?, fits x y = true) ∧ Fitting o :=
  List.isChain_cons

/-- The pieces of an outline are such as a printer makes. -/
def Firm (o : Outline α) : Prop :=
  ∀ p, .inl p ∈ o → p.Firm

theorem firm_pieces {o : Outline α} (hfirm : Firm o)
    (hbelow : ∀ c, .inr c ∈ o → ∀ p ∈ below c, p.Firm) : ∀ p ∈ pieces below o, p.Firm := by
  intro p hp
  obtain ⟨x, hx, hp⟩ := List.mem_flatMap.mp hp
  cases x with
  | inl q => exact List.mem_singleton.mp hp ▸ hfirm q hx
  | inr c => exact hbelow c hx p hp

/-- **Neighbours in an outline.** A relation of this kind holds between all neighbours iff it holds
between those within each child. -/
theorem isChain_pieces_iff (hR : Piece.Lenient R) {o : Outline α}
    (hfits : Fitting o) (hfirm : Firm o)
    (hbelow : ∀ c, .inr c ∈ o → ∀ p ∈ below c, p.Firm) :
    (pieces below o).IsChain R ↔ ∀ c, .inr c ∈ o → (below c).IsChain R := by
  induction o with
  | nil => simp [pieces]
  | cons x o ih =>
    obtain ⟨hhead, hfits⟩ := fitting_cons.mp hfits
    have hfirm' : Firm o := fun p hp => hfirm p (List.mem_cons_of_mem x hp)
    have hbelow' : ∀ c, .inr c ∈ o → ∀ p ∈ below c, p.Firm := fun c hc =>
      hbelow c (List.mem_cons_of_mem x hc)
    have hcons : pieces below (x :: o) = pieces below [x] ++ pieces below o :=
      pieces_append below [x] o
    have hself : (pieces below [x]).IsChain R ↔ ∀ c, .inr c = x → (below c).IsChain R := by
      cases x <;> simp [pieces]
    have hseam : ∀ p ∈ (pieces below [x]).getLast?, ∀ q ∈ (pieces below o).head?, R p q := by
      intro p hp q hq
      have hpfirm : p.Firm := by
        refine firm_pieces hfirm hbelow p ?_
        rw [hcons]
        exact List.mem_append_left _ (List.mem_of_getLast? hp)
      have hqfirm : q.Firm := firm_pieces hfirm' hbelow' q (List.mem_of_head? hq)
      cases o with
      | nil => exact absurd hq (Option.not_mem_none q)
      | cons y o =>
        rcases Bool.or_eq_true_iff.mp (hhead y rfl) with hopens | hcloses
        · cases x with
          | inl r =>
            obtain rfl : r = p := by simpa [pieces] using hp
            exact hR.opens hopens hqfirm
          | inr c => exact absurd hopens Bool.false_ne_true
        · cases y with
          | inl r =>
            obtain rfl : r = q := by simpa [pieces] using hq
            exact hR.closes hpfirm hcloses
          | inr c => exact absurd hcloses Bool.false_ne_true
    rw [hcons, List.isChain_append, hself, ih hfits hfirm' hbelow', and_iff_left hseam]
    simp only [List.mem_cons, or_imp, forall_and]

/-! ### The parts of an outline -/

section Parts

variable {x : Piece ⊕ α} {p q : Piece} {c : α}
  {as : List α} {rest : Outline α} {separator : List Piece}

theorem fits_of_closes (h : q.closes = true) : fits x (.inl q) = true :=
  Bool.or_eq_true_iff.mpr (.inr h)

theorem fits_of_opens (h : p.opens = true) : fits (.inl p) x = true :=
  Bool.or_eq_true_iff.mpr (.inl h)

theorem fitting_cons_gap : Fitting (.inl .gap :: rest) ↔ Fitting rest := by
  rw [fitting_cons]
  exact and_iff_right fun y _ => fits_of_opens rfl

theorem fitting_cons_separator (h : ∀ q ∈ separator, q.closes = true) :
    Fitting (x :: (fixed separator ++ .inl .gap :: rest)) ↔ Fitting rest := by
  induction separator generalizing x with
  | nil =>
    exact fitting_cons_cons.trans ((and_iff_right (fits_of_closes rfl)).trans fitting_cons_gap)
  | cons q separator ih =>
    rw [List.forall_mem_cons] at h
    exact fitting_cons_cons.trans ((and_iff_right (fits_of_closes h.1)).trans (ih h.2))

theorem fitting_separated (h : ∀ q ∈ separator, q.closes = true) (hrest : Fitting rest)
    (hhead : ∀ a, ∀ y ∈ rest.head?, fits (.inr a) y = true) :
    Fitting (separated separator as ++ rest) := by
  induction as with
  | nil => exact hrest
  | cons a as ih =>
    cases as with
    | nil => exact fitting_cons.mpr ⟨hhead a, hrest⟩
    | cons b as =>
      rw [separated_cons_cons, List.cons_append, List.append_assoc, List.cons_append,
        fitting_cons_separator h]
      exact ih

/-- Children between a piece that is not continued and one that continues nothing. -/
theorem fitting_enclosed (h : ∀ q ∈ separator, q.closes = true) (hp : p.opens = true)
    (hq : q.closes = true) :
    Fitting (.inl p :: (separated separator as ++ .inl q :: rest)) ↔ Fitting (.inl q :: rest) := by
  constructor
  · rw [← List.cons_append]
    exact List.IsChain.right_of_append
  · intro hrest
    refine fitting_cons.mpr ⟨fun y _ =>
      fits_of_opens hp, fitting_separated h hrest fun a y hy => ?_⟩
    obtain rfl := Option.some.inj hy
    exact fits_of_closes hq

theorem fitting_parenthesized :
    Fitting (parenthesized as ++ rest) ↔ Fitting (.inl (.token ")") :: rest) := by
  simp only [parenthesized, fixed, List.map_cons, List.map_nil, List.append_assoc, List.cons_append,
    List.nil_append]
  exact fitting_enclosed (by simp +decide) (by decide) (by decide)

theorem fitting_cons_parenthesized :
    Fitting (x :: (parenthesized as ++ rest)) ↔ Fitting (.inl (.token ")") :: rest) := by
  rw [← fitting_parenthesized]
  exact fitting_cons_cons.trans (and_iff_right (fits_of_closes (by decide)))

theorem fitting_braced (h : ∀ q ∈ separator, q.closes = true) :
    Fitting (braced separator as ++ rest) ↔ Fitting (.inl (.token "\x7d") :: rest) := by
  unfold braced
  split
  · exact fitting_cons_cons.trans (and_iff_right (fits_of_closes (by decide)))
  · simp only [fixed, List.map_cons, List.map_nil, List.append_assoc, List.cons_append,
      List.nil_append]
    rw [fitting_cons_cons, fitting_enclosed h rfl rfl, fitting_cons_gap]
    exact and_iff_right (fits_of_closes rfl)

theorem fitting_gap_braced (h : ∀ q ∈ separator, q.closes = true) :
    Fitting (.inl .gap :: (braced separator as ++ rest)) ↔
      Fitting (.inl (.token "\x7d") :: rest) := by
  rw [fitting_cons_gap, fitting_braced h]

theorem mem_fixed : .inr c ∈ (fixed separator : Outline α) ↔ False := by
  simp [fixed]

theorem mem_separated : .inr c ∈ separated separator as ↔ c ∈ as := by
  induction as with
  | nil => simp [separated]
  | cons a as ih =>
    cases as with
    | nil => simp [separated]
    | cons b as => simpa [separated_cons_cons, mem_fixed] using or_congr_right ih

theorem mem_parenthesized : .inr c ∈ parenthesized as ↔ c ∈ as := by
  simp [parenthesized, mem_fixed, mem_separated]

theorem mem_braced : .inr c ∈ braced separator as ↔ c ∈ as := by
  unfold braced
  split <;> simp_all [mem_fixed, mem_separated]

theorem mem_optionally {o : Option α} : .inr c ∈ optionally separator o ↔ c ∈ o.toList := by
  cases o <;> simp [optionally, mem_fixed]

end Parts

end Outline

theorem Piece.firm_token {word : String}
    (h : (Text.isName word.toList || Text.firmMarks.contains word.toList) = true) :
    (token word).Firm :=
  (Bool.or_eq_true_iff.mp h).elim .name fun h => .mark (List.contains_iff_mem.mp h)

theorem Piece.firm_mark {word : String}
    (h : (Text.isName word.toList || Text.punctuators.contains word.toList) = true) :
    (mark word).Firm :=
  (Bool.or_eq_true_iff.mp h).elim .name fun h => .mark (List.contains_iff_mem.mp h)

theorem Piece.firm_gap : gap.Firm :=
  trivial

/-- The words and marks that constructs are printed with. -/
abbrev fixedWords : List String :=
  ["(", ")", "\x7b", "\x7d", "[", "]", ",", ";", ":", "...", "function", "class", "return", "if",
    "while", "for", "throw", "try", "catch", "this",
    "super", "get", "set", "new", "var", "let", "const"]

theorem Piece.firm_fixedWord {word : String} (h : word ∈ fixedWords) : (token word).Firm := by
  have hall : (fixedWords.all fun word =>
      Text.isName word.toList || Text.firmMarks.contains word.toList) = true := by
    decide
  exact firm_token (List.all_eq_true.mp hall word h)

/-- The words and signs that constructs are printed with between blanks. -/
abbrev fixedMarks : List String :=
  ["=", "=>", "?", ":", "extends", "else", "finally"]

theorem Piece.firm_fixedMark {word : String} (h : word ∈ fixedMarks) : (mark word).Firm := by
  have hall : (fixedMarks.all fun word =>
      Text.isName word.toList || Text.punctuators.contains word.toList) = true := by
    decide
  exact firm_mark (List.all_eq_true.mp hall word h)

namespace Outline

section Firm

variable {as : List α} {separator : List Piece}

theorem firm_append {o o' : Outline α} : Firm (o ++ o') ↔ Firm o ∧ Firm o' := by
  simp only [Firm, List.mem_append, or_imp, forall_and]

theorem firm_child (a : α) : Firm [.inr a] := by
  simp [Firm]

theorem firm_fixed {ps : List Piece} : Firm (fixed ps : Outline α) ↔ ∀ p ∈ ps, p.Firm := by
  simp [Firm, fixed]

theorem firm_separated (h : ∀ p ∈ separator, p.Firm) : Firm (separated separator as) := by
  induction as with
  | nil => simp [Firm, separated]
  | cons a as ih =>
    cases as with
    | nil => exact firm_child a
    | cons b as =>
      have hgap : Firm (fixed (separator ++ [.gap]) : Outline α) := by
        rw [firm_fixed, List.forall_mem_append]
        exact ⟨h, by simp [Piece.firm_gap]⟩
      have hall := firm_append.mpr ⟨firm_child a, firm_append.mpr ⟨hgap, ih⟩⟩
      simpa [separated_cons_cons, fixed] using hall

theorem firm_parenthesized : Firm (parenthesized as) := by
  have htoken {word : String} (h : word.toList ∈ Text.firmMarks) :
      ∀ p ∈ [Piece.token word], p.Firm :=
    List.forall_mem_singleton.mpr (.mark h)
  exact firm_append.mpr ⟨firm_append.mpr ⟨firm_fixed.mpr (htoken (by decide)),
    firm_separated (htoken (by decide))⟩, firm_fixed.mpr (htoken (by decide))⟩

theorem firm_braced (h : ∀ p ∈ separator, p.Firm) : Firm (braced separator as) := by
  have hopen : (Piece.token "\x7b").Firm := .mark (by decide)
  have hclose : (Piece.token "\x7d").Firm := .mark (by decide)
  unfold braced
  split
  · exact firm_fixed.mpr (by simp [hopen, hclose])
  · exact firm_append.mpr ⟨firm_append.mpr ⟨firm_fixed.mpr (by simp [hopen, Piece.firm_gap]),
      firm_separated h⟩, firm_fixed.mpr (by simp [hclose, Piece.firm_gap])⟩

theorem firm_optionally {lead : List Piece} (h : ∀ p ∈ lead, p.Firm) (o : Option α) :
    Firm (optionally lead o) := by
  cases o with
  | none => simp [Firm, optionally]
  | some a => exact firm_append.mpr ⟨firm_fixed.mpr h, firm_child a⟩

end Firm

end Outline

/-! ### Words in constructs -/

/-- The operators in front of an operand. -/
def prefixOperators : List String :=
  ["+", "-", "!", "~", "++", "--", "typeof", "void", "delete", "await"]

/-- Whether a string is printed as a literal that can be read. -/
def isQuotable (value : String) : Bool :=
  value.toList.all (Text.legible fun _ => false)

/-- Whether a literal is a word of the language. -/
def Literal.isLexical : Literal → Bool
  | .null | .boolean _ => true
  | .number digits => Text.isDecimal digits.toList
  | .string value => isQuotable value

/-- Whether the name of a property is a word of the language. -/
def PropertyName.isLexical : PropertyName → Bool
  | .identifier name => Text.isName name.toList
  | .numeric digits => Text.isDecimal digits.toList
  | .quoted value => isQuotable value

/-- Whether the words that a construct holds are words of the language. -/
def Shape.isLexical : Shape α → Bool
  | .binding name | .identifier name | .member _ name => Text.isName name.toList
  | .literal value => value.isLexical
  | .property name _ | .method name _ _ | .getter name _ | .setter name _ _ => name.isLexical
  | .binary _ operator _ => binaryOperators.any fun o => o.1 == operator
  | .unary operator _ => prefixOperators.contains operator
  | _ => true

/-! ### The outline of a construct -/

section Shapes

open Outline

variable {s : Shape α} {ends : α → Bool}

/-- The constructs in which each child is kept off by what stands beside it. -/
def Shape.keepsApart : Shape α → Bool
  | .unary _ _ | .member _ _ => false
  | _ => true

theorem Shape.fitting_outline (h : s.keepsApart = true) : Fitting (s.outline ends) := by
  rw [← List.append_nil (s.outline ends)]
  cases s
  case program statements => exact fitting_separated (by simp) fitting_nil nofun
  case comma expressions => exact fitting_separated (by simp +decide) fitting_nil nofun
  case block statements => exact (fitting_braced (by simp)).mpr (fitting_singleton _)
  case object properties => exact (fitting_braced (by simp +decide)).mpr (fitting_singleton _)
  case binary left operator right =>
    exact fitting_cons_cons.mpr ⟨fits_of_closes rfl,
      fitting_cons_cons.mpr ⟨fits_of_opens rfl, fitting_singleton _⟩⟩
  case unary operator operand => exact absurd h Bool.false_ne_true
  case member target name => exact absurd h Bool.false_ne_true
  all_goals
    simp only [outline, List.append_assoc, fixed, List.map_cons, List.map_nil, List.cons_append,
      List.nil_append, optionally]
    repeat' split
  all_goals
    simp +decide only [fitting_cons_parenthesized, fitting_parenthesized, fitting_gap_braced,
      fitting_enclosed, fitting_cons_cons, fitting_singleton, fits, Sum.elim_inl, Sum.elim_inr,
      Bool.or_eq_true, List.map_nil, List.map_cons,
      List.nil_append, List.cons_append, or_true, true_or,
      and_true]

theorem Literal.firm_display {value : Literal} (h : value.isLexical = true) :
    (Piece.token value.display).Firm := by
  match value with
  | .null => exact Piece.firm_token (by decide)
  | .boolean true => exact Piece.firm_token (by decide)
  | .boolean false => exact Piece.firm_token (by decide)
  | .number digits => exact .decimal h
  | .string value => exact .quoted h

theorem PropertyName.firm_display {name : PropertyName} (h : name.isLexical = true) :
    (Piece.token name.display).Firm := by
  cases name with
  | identifier name => exact .name h
  | numeric digits => exact .decimal h
  | quoted value => exact .quoted h

theorem Shape.mem_outline {c : α} : .inr c ∈ s.outline ends ↔ c ∈ s.children := by
  cases s <;>
    simp [outline, children, mem_fixed, mem_separated, mem_parenthesized, mem_braced,
      mem_optionally]

theorem firm_of_prefixOperators {operator : String} (h : prefixOperators.contains operator = true) :
    (Piece.token operator).Firm := by
  have hall : (prefixOperators.all fun operator =>
      Text.isName operator.toList || Text.firmMarks.contains operator.toList) = true := by
    decide
  exact Piece.firm_token (List.all_eq_true.mp hall operator (List.contains_iff_mem.mp h))

/-- An operator that is no word is a sign. -/
theorem mem_signs_of_prefixOperators {operator : String}
    (h : prefixOperators.contains operator = true)
    (hword : operator.toList.all Char.isAlpha = false) : operator.toList ∈ Text.signs := by
  have hall : (prefixOperators.all fun operator =>
      operator.toList.all Char.isAlpha || Text.signs.contains operator.toList) = true := by
    decide
  have hoperator := List.all_eq_true.mp hall operator (List.contains_iff_mem.mp h)
  rw [hword, Bool.false_or] at hoperator
  exact List.contains_iff_mem.mp hoperator

theorem Shape.firm_outline (h : s.isLexical = true) : Firm (s.outline ends) := by
  cases s
  case binding name => exact firm_fixed.mpr (List.forall_mem_singleton.mpr (.name h))
  case identifier name => exact firm_fixed.mpr (List.forall_mem_singleton.mpr (.name h))
  case literal value => exact firm_fixed.mpr (List.forall_mem_singleton.mpr (value.firm_display h))
  case member target name =>
    have hname : (Piece.access name).Firm := h
    exact firm_append.mpr ⟨firm_child target, firm_fixed.mpr (List.forall_mem_singleton.mpr hname)⟩
  case binary left operator right =>
    have hall : (binaryOperators.all fun o =>
        Text.isName o.1.toList || Text.punctuators.contains o.1.toList) = true := by decide +kernel
    obtain ⟨o, ho, hself⟩ := List.any_eq_true.mp h
    obtain rfl := beq_iff_eq.mp hself
    have hmark := Piece.firm_mark (List.all_eq_true.mp hall o ho)
    simp only [outline, firm_append, firm_fixed, firm_child, true_and, and_true]
    simpa using hmark
  case unary operator operand =>
    have htoken := firm_of_prefixOperators h
    simp only [outline, firm_append, firm_fixed, firm_child, and_true]
    split <;> simp [htoken, Piece.firm_gap]
  case varStatement keyword declarators =>
    have hkeyword : (Piece.token keyword.text).Firm := by
      cases keyword <;> exact Piece.firm_fixedWord (by simp [fixedWords, VarKeyword.text])
    simp only [outline, firm_append, firm_fixed]
    simp [firm_separated, hkeyword, Piece.firm_fixedWord, fixedWords, Piece.firm_gap]
  case property name _ | method name _ _ | getter name _ | setter name _ _ =>
    have hname := name.firm_display h
    simp only [outline, firm_append, firm_fixed, firm_child, and_true]
    simp [firm_parenthesized, Piece.firm_fixedWord, fixedWords, Piece.firm_gap, hname]
  case forStatement start condition step body =>
    simp only [outline, firm_append, firm_fixed, firm_child, and_true]
    split <;> simp [firm_optionally, Piece.firm_fixedWord, fixedWords, Piece.firm_gap]
  case parameter name value rest =>
    simp only [outline, firm_append, firm_fixed, firm_child, and_true]
    split <;> simp [firm_optionally, Piece.firm_fixedWord, fixedWords,
      Piece.firm_fixedMark, fixedMarks]
  all_goals
    simp only [outline, firm_append, firm_fixed, firm_child, true_and, and_true]
  all_goals
    simp only [firm_parenthesized, firm_braced, firm_separated, firm_optionally,
      Piece.firm_fixedWord,
      Piece.firm_fixedMark, Piece.firm_gap, fixedWords, fixedMarks, List.mem_cons, List.not_mem_nil,
      forall_eq_or_imp, forall_eq, String.reduceEq, or_false, or_true, and_true, false_imp_iff,
      implies_true]

/-- What `R` has to meet where a child stands beside a token that does not keep it off: behind an
operator that is no word, and in front of a point. -/
def Shape.Joins (R : Piece → Piece → Prop) (below : α → List Piece) : Shape α → Prop
  | .unary operator operand =>
    operator.toList.all Char.isAlpha = false → ∀ q ∈ (below operand).head?, R (.token operator) q
  | .member target name => ∀ p ∈ (below target).getLast?, R p (.access name)
  | _ => True

/-- **Neighbours in a construct.** They are those within each child, and two at a seam. -/
theorem Shape.isChain_pieces_iff {R : Piece → Piece → Prop} {below : α → List Piece}
    (hR : Piece.Lenient R) (h : s.isLexical = true)
    (hbelow : ∀ c ∈ s.children, ∀ p ∈ below c, p.Firm) :
    (pieces below (s.outline ends)).IsChain R ↔
      (∀ c ∈ s.children, (below c).IsChain R) ∧ s.Joins R below := by
  by_cases hapart : s.keepsApart = true
  · have hjoins : s.Joins R below := by
      cases s
      case unary operator operand => exact absurd hapart Bool.false_ne_true
      case member target name => exact absurd hapart Bool.false_ne_true
      all_goals trivial
    rw [and_iff_left hjoins, Outline.isChain_pieces_iff hR (fitting_outline hapart) (firm_outline h)
      fun c hc => hbelow c (mem_outline.mp hc)]
    simp only [mem_outline]
  · cases s
    case member target name =>
      rw [outline, pieces_append, pieces_child, pieces_fixed, List.isChain_append]
      simp [children, Joins]
    case unary operator operand =>
      have hoperand : ∀ p ∈ below operand, p.Firm := hbelow operand (List.mem_singleton.mpr rfl)
      simp only [outline, pieces_append, pieces_child, pieces_fixed, children, Joins,
        List.forall_mem_singleton]
      split
      next hword =>
        -- a word operator has a gap behind it, which keeps the operand off
        have hlead : R (.token operator) .gap := hR.closes (firm_of_prefixOperators h) rfl
        have hgap : ∀ q ∈ (below operand).head?, R .gap q := fun q hq =>
          hR.opens rfl (hoperand q (List.mem_of_head? hq))
        simp only [List.cons_append, List.nil_append, List.isChain_cons, List.head?_cons,
          Option.mem_def,
          Option.some.injEq, forall_eq', hword, reduceCtorEq, IsEmpty.forall_iff, and_true]
        exact ⟨fun hchain => hchain.2.2, fun hchain => ⟨hlead, hgap, hchain⟩⟩
      next hword =>
        rw [List.singleton_append, List.isChain_cons, and_comm,
          imp_iff_right (Bool.eq_false_of_not_eq_true hword)]
    all_goals exact absurd rfl hapart

theorem Shape.joins_legal {below : α → List Piece} (h : s.isLexical = true)
    (hbelow : ∀ c ∈ s.children, ∀ p ∈ below c, p.Firm) : s.Joins Piece.Legal below := by
  cases s
  case unary operator operand =>
    intro hword q hq
    have hfirm := hbelow operand (List.mem_singleton.mpr rfl) q (List.mem_of_head? hq)
    exact Piece.legal_sign (mem_signs_of_prefixOperators h hword) hfirm
  case member target name =>
    intro p hp
    have hfirm := hbelow target (List.mem_singleton.mpr rfl) p (List.mem_of_getLast? hp)
    exact Piece.legal_access hfirm name
  all_goals trivial

/-- Whether two tokens of a construct are read as one: a sign and the sign that its operand begins
with, or the digits at the end of a target and the point behind them. -/
def Shape.fuses (below : α → List Piece) : Shape α → Bool
  | .unary operator operand => (below operand).head?.any (Piece.token operator).fuses
  | .member target name => (below target).getLast?.any fun p => p.fuses (.access name)
  | _ => false

theorem Shape.joins_fuses_iff {below : α → List Piece} (h : s.isLexical = true) :
    s.Joins (fun p q => p.fuses q = false) below ↔ s.fuses below = false := by
  cases s
  case unary operator operand =>
    have hall : (prefixOperators.all fun operator => !operator.toList.all Char.isAlpha ||
        operator != "+" && operator != "-" && !operator.toList.all Char.isDigit) = true := by
      decide
    have hoperator := List.all_eq_true.mp hall operator (List.contains_iff_mem.mp h)
    -- a word operator fuses with nothing, so the gap behind it makes no difference
    have hword (halpha : operator.toList.all Char.isAlpha = true) (q : Piece) :
        (Piece.token operator).fuses q = false := by
      simp only [halpha, Bool.not_true, Bool.false_or, Bool.and_eq_true, bne_iff_ne,
        Bool.not_eq_true'] at hoperator
      obtain ⟨⟨hplus, hminus⟩, hdigits⟩ := hoperator
      cases q with
      | token next => simp [Piece.fuses, hplus, hminus]
      | access name => exact hdigits
      | mark word => rfl
      | gap => rfl
    rw [Joins, fuses, Option.any_eq_false]
    refine ⟨fun hjoins q hq => ?_, fun hfuses _ => hfuses⟩
    cases halpha : operator.toList.all Char.isAlpha with
    | true => exact hword halpha q
    | false => exact hjoins halpha q hq
  case member target name => exact (Option.any_eq_false _ _).symm
  all_goals exact iff_of_true trivial rfl

end Shapes

/-! ### Trees -/

namespace Tree

/-- The words that the nodes of the tree hold are words of the language. -/
def Lexical (t : Tree) : Prop :=
  t.Everywhere fun u => u.shape.isLexical = true

theorem Lexical.firm_pieces {t : Tree} (h : t.Lexical) : ∀ p ∈ t.pieces, p.Firm := by
  induction t with
  | node o s r ih =>
    obtain ⟨hroot, hbelow⟩ := everywhere_node.mp h
    rw [pieces_node]
    exact Outline.firm_pieces (Shape.firm_outline hroot) fun c hc =>
      ih c (Shape.mem_outline.mp hc) (hbelow c (Shape.mem_outline.mp hc))

theorem Lexical.spells_textAt {t : Tree} (h : t.Lexical) (depth : Nat) :
    Spells t.pieces (t.textAt depth) := by
  induction t generalizing depth with
  | node o s r ih =>
    obtain ⟨hroot, hbelow⟩ := everywhere_node.mp h
    rw [pieces_node, textAt_node]
    refine Shape.spells_text (fun c hc => ih c hc (hbelow c hc)) (fun c hc depth => ?_) depth
    have hspells := ih c hc (hbelow c hc) depth
    rw [hspells.getLast?_eq_iff (Lexical.firm_pieces (hbelow c hc)), endsStatement, beq_iff_eq]

/-- **Neighbours in a tree.** They are the neighbours at the seams of its nodes. -/
theorem Lexical.isChain_pieces_iff {R : Piece → Piece → Prop} (hR : Piece.Lenient R) {t : Tree}
    (h : t.Lexical) : t.pieces.IsChain R ↔ t.Everywhere fun u => u.shape.Joins R pieces := by
  induction t with
  | node o s r ih =>
    obtain ⟨hroot, hbelow⟩ := everywhere_node.mp h
    have hself :
        (Outline.pieces pieces (s.outline fun c => endsStatement c.pieces)).IsChain R ↔ _ :=
      Shape.isChain_pieces_iff hR hroot fun c hc => Lexical.firm_pieces (hbelow c hc)
    rw [pieces_node, everywhere_node, hself, and_comm]
    exact and_congr_right fun _ => forall₂_congr fun c hc => ih c hc (hbelow c hc)

/-- Wherever two tokens meet that are not kept off, they come apart or fuse. -/
theorem Lexical.isChain_legal {t : Tree} (h : t.Lexical) : t.pieces.IsChain Piece.Legal := by
  rw [h.isChain_pieces_iff Piece.lenient_legal]
  induction t with
  | node o s r ih =>
    obtain ⟨hroot, hbelow⟩ := everywhere_node.mp h
    refine everywhere_node.mpr ⟨?_, fun c hc => ih c hc (hbelow c hc)⟩
    exact Shape.joins_legal hroot fun c hc => Lexical.firm_pieces (hbelow c hc)

/-- Whether two tokens fuse where a child of the root meets a token of the root. -/
def fuses (t : Tree) : Bool :=
  t.shape.fuses pieces

theorem Lexical.isChain_fuses_iff {t : Tree} (h : t.Lexical) :
    (t.pieces.IsChain fun p q => p.fuses q = false) ↔ t.Everywhere fun u => u.fuses = false := by
  rw [h.isChain_pieces_iff Piece.lenient_fuses]
  induction t with
  | node o s r ih =>
    obtain ⟨hroot, hbelow⟩ := everywhere_node.mp h
    rw [everywhere_node, everywhere_node]
    exact and_congr (Shape.joins_fuses_iff hroot) (forall₂_congr fun c hc => ih c hc (hbelow c hc))

/-- The tokens that the nodes of a tree contribute, in order. -/
def tokens (t : Tree) : List String :=
  t.pieces.flatMap Piece.words

end Tree

/-- **The tokens of a printed text.** The text of a node consists of the tokens of its tree, with
blanks between some of them, and it is split into these tokens iff nowhere a sign is printed in
front of the same sign or a number with digits only in front of a point. -/
theorem Store.text_tokens {s : Store} {root : NodeId} (closed : s.Closed root)
    (acyclic : s.Acyclic root)
    (lexical : (s.tree s.size root).Everywhere fun t => t.shape.isLexical = true) :
    Spells (s.tree s.size root).pieces (s.text root) ∧
      (Text.tokens? (s.text root) = some (s.tree s.size root).tokens ↔
        (s.tree s.size root).Everywhere fun t => t.fuses = false) := by
  have hlexical : (s.tree s.size root).Lexical := lexical
  have hg : s.Grounded root := Store.grounded_iff.mpr ⟨closed, acyclic⟩
  have hspells : Spells (s.tree s.size root).pieces (s.text root) := by
    rw [hg.text_eq s.size]
    exact hlexical.spells_textAt 0
  refine ⟨hspells, ?_⟩
  rw [Tree.tokens, hspells.tokens?_eq_iff hlexical.firm_pieces hlexical.isChain_legal,
    hlexical.isChain_fuses_iff]

/-- Operators in front of operators, and a point behind a number. -/
def operatorStore : Store where
  nodes := #[⟨.literal (.number "1.5"), none⟩, ⟨.member ⟨0⟩ "a", none⟩, ⟨.unary "+" ⟨1⟩, none⟩,
    ⟨.unary "-" ⟨2⟩, none⟩, ⟨.unary "typeof" ⟨3⟩, none⟩]

/-- Different signs do not fuse, and neither do a number that has a point already and another
point. -/
theorem Store.text_tokens_operators :
    operatorStore.Closed ⟨4⟩ ∧ operatorStore.Acyclic ⟨4⟩ ∧
    ((operatorStore.tree operatorStore.size ⟨4⟩).Everywhere fun t => t.shape.isLexical = true) ∧
    operatorStore.text ⟨4⟩ = "typeof -+1.5.a" ∧
    Text.tokens? (operatorStore.text ⟨4⟩) = some ["typeof", "-", "+", "1.5", ".", "a"] := by
  have hfits : operatorStore.Fits 5 ⟨4⟩ := by decide +kernel
  have hg := Store.grounded_iff.mp hfits.grounded
  have hlexical : (operatorStore.tree operatorStore.size ⟨4⟩).Everywhere fun t =>
      t.shape.isLexical = true := by decide +kernel
  have htokens : (operatorStore.tree operatorStore.size ⟨4⟩).tokens =
      ["typeof", "-", "+", "1.5", ".", "a"] := by decide +kernel
  refine ⟨hg.1, hg.2, hlexical, by decide +kernel, ?_⟩
  rw [← htokens]
  exact (Store.text_tokens hg.1 hg.2 hlexical).2.mpr (by decide +kernel)

/-- A sign in front of the same sign, and a point behind digits. -/
def fusingStore : Store where
  nodes := #[⟨.identifier "x", none⟩, ⟨.unary "-" ⟨0⟩, none⟩, ⟨.unary "-" ⟨1⟩, none⟩,
    ⟨.literal (.number "1"), none⟩, ⟨.member ⟨3⟩ "x", none⟩]

/-- Two signs are read as one token, and so are a number and a point. -/
theorem Store.text_fuses_tokens :
    ((fusingStore.tree fusingStore.size ⟨2⟩).Everywhere fun t => t.shape.isLexical = true) ∧
    ((fusingStore.tree fusingStore.size ⟨4⟩).Everywhere fun t => t.shape.isLexical = true) ∧
    fusingStore.text ⟨2⟩ = "--x" ∧
    (fusingStore.tree fusingStore.size ⟨2⟩).tokens = ["-", "-", "x"] ∧
    Text.tokens? (fusingStore.text ⟨2⟩) = some ["--", "x"] ∧
    fusingStore.text ⟨4⟩ = "1.x" ∧
    (fusingStore.tree fusingStore.size ⟨4⟩).tokens = ["1", ".", "x"] ∧
    Text.tokens? (fusingStore.text ⟨4⟩) = some ["1.", "x"] := by
  decide +kernel

end Declass
