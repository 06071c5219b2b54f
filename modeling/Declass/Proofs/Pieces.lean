import Mathlib.Data.List.Chain
import Declass.Proofs.Lexing

/-!
# Pieces of printed text

A printed text is a row of pieces: tokens and the blanks between some of them. How many blanks there
are depends on where the text stands, so a row of pieces only says where there are any, and `Spells`
relates it to the texts that it stands for.

Splitting such a text gives back the tokens of its row iff no two pieces that stand side by side
fuse (`Piece.fuses`), provided that each two come apart or fuse (`Piece.Legal`). The latter is what
a printer has to take care of. It is a property of neighbours, and so is the absence of fused
pieces; both are stated as `List.IsChain`, which says of a row put together from shorter ones what
has to hold at the seams.

## Main definitions

* `Piece`, `Piece.words`, `Piece.Firm`
* `Spells` — a row of pieces stands for a text
* `Piece.fuses` — the second piece is read as a part of the first
* `Piece.Legal` — two pieces come apart or fuse

## Main results

* `Spells.tokens?_eq_iff` — a text splits into its tokens iff no two pieces fuse
-/

namespace Declass

open Text

/-- A part of a printed text. -/
inductive Piece where
  /-- A token. -/
  | token (word : String)
  /-- A point and a name, without a blank between them. -/
  | access (name : String)
  /-- A token with a blank on either side. -/
  | mark (word : String)
  /-- Blanks. -/
  | gap
  deriving DecidableEq

namespace Piece

/-- The tokens of a piece. -/
def words : Piece → List String
  | token word => [word]
  | access name => [".", name]
  | mark word => [word]
  | gap => []

/-- The pieces that a printer makes. What stands between blanks may be any token. -/
def Firm : Piece → Prop
  | token word => IsWord firmMarks word
  | access name => isName name.toList = true
  | mark word => IsWord punctuators word
  | gap => True

/-- Whether the second piece is read as a part of the first: a sign is continued by the same sign,
and a point belongs to a number that has digits only. -/
def fuses : Piece → Piece → Bool
  | token word, token next => (word == "+" || word == "-") && word.toList.isPrefixOf next.toList
  | token word, access _ => word.toList.all Char.isDigit
  | _, _ => false

/-- The token at the end of a piece that does not end with a blank. -/
def last? : Piece → Option String
  | token word => some word
  | access name => some name
  | mark _ | gap => none

/-- The token at the start of a piece that does not start with a blank. -/
def first? : Piece → Option String
  | token word => some word
  | access _ => some "."
  | mark _ | gap => none

/-- Nothing of the second piece belongs to a token of the first, whatever follows. -/
def Apart (p q : Piece) : Prop :=
  ∀ word ∈ p.last?, ∀ next ∈ q.first?, ∀ rest, Longest word.toList (next.toList ++ rest)

/-- The pieces come apart, or fuse in one of the two ways that there are. -/
def Legal (p q : Piece) : Prop :=
  p.fuses q = true ∨ p.Apart q

end Piece

/-- The texts that a row of pieces stands for. -/
inductive Spells : List Piece → String → Prop where
  | nil : Spells [] ""
  | token {word text : String} {ps : List Piece} (h : Spells ps text) :
      Spells (.token word :: ps) (word ++ text)
  | access {name text : String} {ps : List Piece} (h : Spells ps text) :
      Spells (.access name :: ps) ("." ++ (name ++ text))
  | mark {word text : String} {ps : List Piece} (h : Spells ps text) :
      Spells (.mark word :: ps) (" " ++ (word ++ (" " ++ text)))
  | gap {blanks : List Char} {text : String} {ps : List Piece} (hne : blanks ≠ [])
      (hblanks : ∀ c ∈ blanks, isSpace c = true) (h : Spells ps text) :
      Spells (.gap :: ps) (String.ofList blanks ++ text)

namespace Spells

variable {ps qs : List Piece} {p q : Piece} {text text' : String}

theorem append (h : Spells ps text) (h' : Spells qs text') : Spells (ps ++ qs) (text ++ text') := by
  induction h with
  | nil => rwa [List.nil_append, String.empty_append]
  | token _ ih =>
    rw [List.cons_append, String.append_assoc]
    exact .token ih
  | access _ ih =>
    rw [List.cons_append, String.append_assoc, String.append_assoc]
    exact .access ih
  | mark _ ih =>
    rw [List.cons_append, String.append_assoc, String.append_assoc, String.append_assoc]
    exact .mark ih
  | gap hne hblanks _ ih =>
    rw [List.cons_append, String.append_assoc]
    exact .gap hne hblanks ih

/-- What a text begins with is decided by the first piece. -/
theorem cons_start (h : Spells (q :: qs) text) :
    (∃ next ∈ q.first?, ∃ rest, text.toList = next.toList ++ rest) ∨
      q.first? = none ∧ ∃ c rest, text.toList = c :: rest ∧ isSpace c = true := by
  cases h with
  | token => exact .inl ⟨_, rfl, _, String.toList_append⟩
  | access => exact .inl ⟨_, rfl, _, String.toList_append⟩
  | mark => exact .inr ⟨rfl, ' ', _, String.toList_append, rfl⟩
  | gap hne hblanks =>
    obtain ⟨c, cs, rfl⟩ := List.exists_cons_of_ne_nil hne
    exact .inr ⟨rfl, c, _, by rw [String.toList_append, String.toList_ofList, List.cons_append],
      hblanks c List.mem_cons_self⟩

/-- The last token of a piece stands alone in front of what it does not fuse with. -/
theorem longest {word : String} (h : Spells ps text) (hlast : word ∈ p.last?)
    (hword : IsWord punctuators word) (happart : ∀ q ∈ ps.head?, p.Apart q) :
    Longest word.toList text.toList := by
  cases ps with
  | nil =>
    cases h
    exact hword.longest_of_stop nofun
  | cons q ps =>
    rcases h.cons_start with ⟨next, hnext, rest, htext⟩ | ⟨-, c, rest, htext, hc⟩
    · rw [htext]
      exact happart q rfl word hlast next hnext rest
    · rw [htext]
      refine hword.longest_of_stop fun d hd => ?_
      obtain rfl := Option.some.inj hd
      simp [isStop, hc]

end Spells

/-! ### Splitting a row of pieces -/

theorem splitFrom_blanks {blanks : List Char}
    (h : ∀ c ∈ blanks, isSpace c = true) (rest : List Char) :
    splitFrom 0 (blanks ++ rest) = splitFrom 0 rest := by
  induction blanks with
  | nil => rfl
  | cons c cs ih =>
    have hc := h c List.mem_cons_self
    have hgap : isGap [c] = true := hc
    rw [← ih fun d hd => h d (List.mem_cons_of_mem c hd)]
    exact (longest_space hc (cs ++ rest)).splitFrom_eq.trans (if_pos hgap)

/-- Only a number has digits only. -/
theorem isDecimal_of_digits {word : String} (h : IsWord firmMarks word)
    (hdigits : word.toList.all Char.isDigit = true) : isDecimal word.toList = true := by
  cases h with
  | decimal h => exact h
  | name h => exact absurd hdigits (by rw [all_isDigit_of_isName h]; exact Bool.false_ne_true)
  | quoted h =>
    rw [toList_quote] at hdigits
    exact absurd (List.all_eq_true.mp hdigits '"' List.mem_cons_self) (by decide)
  | mark h =>
    have hall : (firmMarks.all fun w => !w.all Char.isDigit) = true := by decide
    have hnot := List.all_eq_true.mp hall _ h
    simp [hdigits] at hnot

theorem Piece.fuses_of_first?_eq_none {p q : Piece} (h : q.first? = none) : p.fuses q = false := by
  cases q with
  | token word => exact nomatch h
  | access name => exact nomatch h
  | mark word => cases p <;> rfl
  | gap => cases p <;> rfl

theorem Piece.fuses_of_last?_eq_none {p : Piece} (q : Piece) (h : p.last? = none) :
    p.fuses q = false := by
  cases p with
  | token word => exact nomatch h
  | access name => exact nomatch h
  | mark word => rfl
  | gap => rfl

theorem Piece.Firm.isWord {p : Piece} {word : String} (h : p.Firm) (hlast : word ∈ p.last?) :
    IsWord punctuators word := by
  cases p with
  | token w =>
    obtain rfl := Option.some.inj hlast
    exact h.of_firm
  | access n =>
    obtain rfl := Option.some.inj hlast
    exact .name h
  | mark w => exact nomatch hlast
  | gap => exact nomatch hlast

/-- The first token of a piece that fuses is read as a part of the piece before. -/
theorem Piece.Firm.length_lt_munch {p q : Piece} {word next : String} (hp : p.Firm)
    (hfuses : p.fuses q = true) (hlast : word ∈ p.last?)
    (hfirst : next ∈ q.first?) (rest : List Char) :
    ∃ a as, word.toList = a :: as ∧ a ≠ '/' ∧
      (a :: as).length < munch (a :: as ++ (next.toList ++ rest)) := by
  unfold Piece.fuses at hfuses
  split at hfuses
  · obtain rfl := Option.some.inj hlast
    obtain rfl := Option.some.inj hfirst
    simp only [Bool.and_eq_true, Bool.or_eq_true, beq_iff_eq, List.isPrefixOf_iff_prefix] at hfuses
    obtain ⟨hsign, ⟨tail, hnext⟩⟩ := hfuses
    rw [← hnext, List.append_assoc]
    rcases hsign with rfl | rfl
    · exact ⟨'+', [], rfl, by decide, length_lt_munch_sign (.inl rfl) _⟩
    · exact ⟨'-', [], rfl, by decide, length_lt_munch_sign (.inr rfl) _⟩
  · obtain rfl := Option.some.inj hlast
    obtain rfl := Option.some.inj hfirst
    have hdecimal := isDecimal_of_digits hp hfuses
    rename_i word name
    cases hword : word.toList with
    | nil => exact absurd (hword ▸ hdecimal) (by decide)
    | cons a as =>
      rw [hword] at hfuses hdecimal
      refine ⟨a, as, rfl, ?_, length_lt_munch_dot hdecimal (List.all_eq_true.mp hfuses) rest⟩
      rintro rfl
      exact absurd (List.all_eq_true.mp hfuses '/' List.mem_cons_self) (by decide)
  · exact absurd hfuses Bool.false_ne_true

/-- Splitting at the last token of a piece. -/
theorem Spells.splitFrom_last_iff {ps : List Piece} {p : Piece} {text word : String}
    (h : Spells ps text) (hlast : word ∈ p.last?) (hp : p.Firm) (legal : ∀ q ∈ ps.head?, p.Legal q)
    (words : List String) :
    splitFrom 0 (word.toList ++ text.toList) = some (word :: words) ↔
      (∀ q ∈ ps.head?, p.fuses q = false) ∧ splitFrom 0 text.toList = some words := by
  have hword := hp.isWord hlast
  by_cases hfuses : ∀ q ∈ ps.head?, p.fuses q = false
  · have hlongest := h.longest hlast hword fun q hq =>
      (legal q hq).resolve_left (by simp [hfuses q hq])
    rw [hlongest.splitFrom_eq, hword.isGap_eq_false, and_iff_right hfuses]
    simp [String.ofList_toList]
  · refine iff_of_false ?_ fun h => hfuses h.1
    simp only [not_forall, Bool.not_eq_false] at hfuses
    obtain ⟨q, hq, hfuse⟩ := hfuses
    obtain ⟨qs, rfl⟩ := List.head?_eq_some_iff.mp hq
    rcases h.cons_start with ⟨next, hnext, rest, htext⟩ | ⟨hnone, -⟩
    · obtain ⟨a, as, ha, hslash, hlength⟩ := hp.length_lt_munch hfuse hlast hnext rest
      have hself : word = String.ofList (a :: as) := by rw [← ha, String.ofList_toList]
      rw [ha, htext, hself]
      exact splitFrom_ne hslash hlength words
    · rw [Piece.fuses_of_first?_eq_none hnone] at hfuse
      exact absurd hfuse Bool.false_ne_true

/-- **Splitting a printed text.** It gives the tokens of the pieces iff no two of them fuse. -/
theorem Spells.tokens?_eq_iff {ps : List Piece} {text : String} (h : Spells ps text)
    (firm : ∀ p ∈ ps, p.Firm) (legal : ps.IsChain Piece.Legal) :
    tokens? text = some (ps.flatMap Piece.words) ↔ ps.IsChain fun p q => p.fuses q = false := by
  rw [tokens?]
  induction h with
  | nil => simp [splitFrom]
  | token h ih =>
    rw [List.isChain_cons] at legal ⊢
    rw [List.forall_mem_cons] at firm
    rw [← ih firm.2 legal.2, String.toList_append, List.flatMap_cons]
    exact h.splitFrom_last_iff rfl firm.1 legal.1 _
  | @access name text ps h ih =>
    rw [List.isChain_cons] at legal ⊢
    rw [List.forall_mem_cons] at firm
    have hlongest : Longest ['.'] (name.toList ++ text.toList) := longest_dot firm.1 text.toList
    have hsplit := hlongest.splitFrom_eq
    have hgap : isGap ['.'] = false := rfl
    rw [hgap, if_neg Bool.false_ne_true] at hsplit
    rw [← ih firm.2 legal.2, ← h.splitFrom_last_iff rfl firm.1 legal.1, String.toList_append,
      String.toList_append, List.flatMap_cons]
    change splitFrom 0 (['.'] ++ (name.toList ++ text.toList)) = some ("." :: name :: _) ↔ _
    rw [hsplit]
    simp
  | @mark word text ps h ih =>
    rw [List.isChain_cons] at legal ⊢
    rw [List.forall_mem_cons] at firm
    have hblank : ∀ c ∈ " ".toList, isSpace c = true := fun c hc => by
      obtain rfl := List.mem_singleton.mp hc
      rfl
    have hlongest : Longest word.toList (" ".toList ++ text.toList) :=
      firm.1.longest_of_stop fun c hc => by
        obtain rfl := Option.some.inj hc
        decide
    rw [← ih firm.2 legal.2, and_iff_right fun q _ => Piece.fuses_of_last?_eq_none q rfl]
    simp only [String.toList_append]
    rw [splitFrom_blanks hblank, hlongest.splitFrom_eq, firm.1.isGap_eq_false,
      splitFrom_blanks hblank,
      List.flatMap_cons]
    simp [Piece.words, String.ofList_toList]
  | gap hne hblanks h ih =>
    rw [List.isChain_cons] at legal ⊢
    rw [List.forall_mem_cons] at firm
    rw [← ih firm.2 legal.2, and_iff_right fun q _ => Piece.fuses_of_last?_eq_none q rfl,
      String.toList_append, String.toList_ofList, splitFrom_blanks hblanks, List.flatMap_cons]
    rfl

/-! ### Pieces that keep others off -/

namespace Piece

/-- Nothing in front of the piece is continued by it. -/
def closes : Piece → Bool
  | token word => word.toList.head?.any isStop
  | access _ => false
  | mark _ | gap => true

/-- The piece is not continued by anything behind it. -/
def opens : Piece → Bool
  | token word => brackets.contains word.toList
  | access _ => false
  | mark _ | gap => true

/-- A relation between neighbours that holds wherever one of them keeps the other off. -/
structure Lenient (R : Piece → Piece → Prop) : Prop where
  closes {p q : Piece} : p.Firm → q.closes = true → R p q
  opens {p q : Piece} : p.opens = true → q.Firm → R p q

theorem apart_of_longest {p q : Piece} {word next : String} (hlast : p.last? = some word)
    (hfirst : q.first? = some next) (h : ∀ rest, Longest word.toList (next.toList ++ rest)) :
    p.Apart q := by
  intro w hw n hn
  obtain rfl := Option.some.inj (hlast.symm.trans hw)
  obtain rfl := Option.some.inj (hfirst.symm.trans hn)
  exact h

/-- What stands behind a sign fuses with it or does not belong to it. -/
theorem legal_sign {word : String} {q : Piece} (hword : word.toList ∈ signs) (hq : q.Firm) :
    (token word).Legal q := by
  cases q with
  | token next =>
    obtain ⟨c, cs, hnext, hc⟩ := IsWord.head_ne hq
    by_cases hfuses : (token word).fuses (.token next) = true
    · exact .inl hfuses
    · refine .inr (apart_of_longest rfl rfl fun rest => ?_)
      rw [hnext]
      refine longest_sign hword hc (fun ⟨hsingle, hsign⟩ => hfuses ?_) _
      have hself : word = String.singleton c := by
        rw [← String.toList_inj, hsingle]
        simp
      rcases hsign with rfl | rfl <;> simp +decide [fuses, hself, hnext]
  | access name =>
    have hdot : ¬ (word.toList = ['.'] ∧ ('.' = '+' ∨ '.' = '-')) := by simp
    exact .inr (apart_of_longest rfl rfl fun rest => longest_sign hword (by decide) hdot rest)
  | mark word => exact .inr nofun
  | gap => exact .inr nofun

/-- What stands in front of a point fuses with it or does not reach it. -/
theorem legal_access {p : Piece} (hp : p.Firm) (name : String) : p.Legal (.access name) := by
  cases p with
  | token word =>
    by_cases hdigits : word.toList.all Char.isDigit = true
    · exact .inl hdigits
    · refine .inr (apart_of_longest rfl rfl fun rest => ?_)
      exact IsWord.longest_of_dot hp (by simpa using hdigits) rest
  | access word =>
    refine .inr (apart_of_longest rfl rfl fun rest => ?_)
    refine IsWord.longest_of_dot (.name hp) (fun hdigits => ?_) rest
    have hnot := all_isDigit_of_isName hp
    rw [List.all_eq_true.mpr hdigits] at hnot
    exact Bool.false_ne_true hnot.symm
  | mark word => exact .inr nofun
  | gap => exact .inr nofun

/-- Where one piece keeps the other off, the two are legal. -/
theorem lenient_legal : Lenient Legal where
  closes {p q} hp hq := by
    cases q with
    | token next =>
      refine .inr fun word hlast _ hfirst rest => ?_
      obtain rfl := Option.some.inj hfirst
      refine (hp.isWord hlast).longest_of_stop fun c hc => ?_
      cases hnext : next.toList with
      | nil => simp [Piece.closes, hnext] at hq
      | cons d ds =>
        simp only [Piece.closes, hnext, List.head?_cons, Option.any_some] at hq
        obtain rfl : d = c := by simpa [hnext] using hc
        exact hq
    | access name => exact absurd hq Bool.false_ne_true
    | mark word => exact .inr fun _ _ _ h => nomatch h
    | gap => exact .inr fun _ _ _ h => nomatch h
  opens {p q} hp hq := by
    cases p with
    | token word =>
      refine .inr fun _ hlast next _ rest => ?_
      obtain rfl := Option.some.inj hlast
      exact longest_bracket (List.contains_iff_mem.mp hp) _
    | access name => exact absurd hp Bool.false_ne_true
    | mark word => exact .inr nofun
    | gap => exact .inr nofun

/-- Where one piece keeps the other off, the two do not fuse. -/
theorem lenient_fuses : Lenient fun p q => p.fuses q = false where
  closes {p q} hp hq := by
    cases q with
    | token next =>
      cases p with
      | token word =>
        rw [← Bool.not_eq_true]
        intro hfuses
        simp only [fuses, Bool.and_eq_true, Bool.or_eq_true, beq_iff_eq,
          List.isPrefixOf_iff_prefix] at hfuses
        obtain ⟨hsign, ⟨tail, hnext⟩⟩ := hfuses
        rw [Piece.closes, ← hnext] at hq
        have hplus : isStop '+' = false := by decide
        have hminus : isStop '-' = false := by decide
        rcases hsign with rfl | rfl
        · exact Bool.false_ne_true (hplus.symm.trans hq)
        · exact Bool.false_ne_true (hminus.symm.trans hq)
      | access name => rfl
      | mark word => rfl
      | gap => rfl
    | access name => exact absurd hq Bool.false_ne_true
    | mark word => exact fuses_of_first?_eq_none rfl
    | gap => exact fuses_of_first?_eq_none rfl
  opens {p q} hp hq := by
    cases p with
    | token word =>
      have hall :
          (brackets.all fun w => w != ['+'] && w != ['-'] && !w.all Char.isDigit) = true := by
        decide
      have hword := List.all_eq_true.mp hall _ (List.contains_iff_mem.mp hp)
      simp only [Bool.and_eq_true, bne_iff_ne, Bool.not_eq_true'] at hword
      have hplus : word ≠ "+" := fun h => hword.1.1 (h ▸ rfl)
      have hminus : word ≠ "-" := fun h => hword.1.2 (h ▸ rfl)
      cases q with
      | token next => simp [fuses, hplus, hminus]
      | access name => exact hword.2
      | mark word => rfl
      | gap => rfl
    | access name => exact absurd hp Bool.false_ne_true
    | mark word => exact fuses_of_last?_eq_none q rfl
    | gap => exact fuses_of_last?_eq_none q rfl

end Piece

/-! ### Rows that end with a semicolon -/

theorem Spells.exists_of_append {ps qs : List Piece} {text : String} (h : Spells (ps ++ qs) text) :
    ∃ start rest, text = start ++ rest ∧ Spells ps start ∧ Spells qs rest := by
  induction ps generalizing text with
  | nil => exact ⟨"", text, String.empty_append.symm, .nil, h⟩
  | cons p ps ih =>
    cases h with
    | token h =>
      obtain ⟨start, rest, rfl, hstart, hrest⟩ := ih h
      exact ⟨_, rest, String.append_assoc.symm, .token hstart, hrest⟩
    | access h =>
      obtain ⟨start, rest, rfl, hstart, hrest⟩ := ih h
      exact ⟨_, rest, by simp only [String.append_assoc], .access hstart, hrest⟩
    | mark h =>
      obtain ⟨start, rest, rfl, hstart, hrest⟩ := ih h
      exact ⟨_, rest, by simp only [String.append_assoc], .mark hstart, hrest⟩
    | gap hne hblanks h =>
      obtain ⟨start, rest, rfl, hstart, hrest⟩ := ih h
      exact ⟨_, rest, String.append_assoc.symm, .gap hne hblanks hstart, hrest⟩

/-- A text ends with a semicolon iff its pieces do. -/
theorem Spells.getLast?_eq_iff {ps : List Piece} {text : String} (h : Spells ps text)
    (firm : ∀ p ∈ ps, p.Firm) :
    text.toList.getLast? = some ';' ↔ ps.getLast? = some (.token ";") := by
  rcases List.eq_nil_or_concat ps with rfl | ⟨qs, p, rfl⟩
  · cases h
    simp
  · rw [List.concat_eq_append] at h
    obtain ⟨start, rest, rfl, -, hrest⟩ := h.exists_of_append
    have hp : p.Firm := firm p (by simp)
    obtain ⟨c, hc, hiff⟩ : ∃ c, rest.toList.getLast? = some c ∧ (c = ';' ↔ p = .token ";") := by
      cases hrest with
      | token hnil =>
        cases hnil
        obtain ⟨c, hc, hiff⟩ := IsWord.getLast?_eq hp
        exact ⟨c, by simpa using hc, by simpa using hiff⟩
      | access hnil =>
        cases hnil
        rename_i name
        have hname : isName name.toList = true := hp
        have hne : name.toList ≠ [] := fun hnil => by simp [hnil, isName] at hname
        have hlast : ("." ++ (name ++ "")).toList.getLast? = some (name.toList.getLast hne) := by
          rw [String.append_empty, String.toList_append, List.getLast?_append,
            List.getLast?_eq_some_getLast hne]
          rfl
        refine ⟨_, hlast, iff_of_false (fun hlast => ?_) Piece.noConfusion⟩
        have hstop := isStop_of_mem_name hname (List.getLast_mem hne)
        exact absurd hstop (by rw [hlast]; decide)
      | mark hnil =>
        cases hnil
        refine ⟨' ', ?_, iff_of_false (by decide) Piece.noConfusion⟩
        rw [← String.append_assoc, String.toList_append, List.getLast?_append]
        rfl
      | gap hne hblanks hnil =>
        cases hnil
        rename_i blanks
        refine ⟨blanks.getLast hne, by simp [List.getLast?_eq_some_getLast hne],
          iff_of_false (fun hlast => ?_) Piece.noConfusion⟩
        have hspace := hblanks _ (List.getLast_mem hne)
        exact absurd hspace (by rw [hlast]; decide)
    simp [List.getLast?_append, hc, hiff]

end Declass
