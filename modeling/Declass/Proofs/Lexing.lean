import Mathlib.Data.List.Basic
import Mathlib.Data.Nat.Find
import Declass.Text.Blank
import Declass.Text.Decimal
import Declass.Proofs.Quoting

/-!
# Splitting a text into tokens

A text is split from its start on: the longest piece of it that is a token, a comment or a blank is
taken off, and the rest is split in the same way. Whether two tokens that are printed without a
blank between them come apart again is a question about the second one's first characters, and it
has one answer for most: `isStop` characters continue no token. What is left is the difference
between tokens that other tokens continue, as `-` and `--`, and those that none does.

Regular expressions and template literals are left out, since no tree has one; a slash begins a
comment or divides. Names are those with ASCII characters.

## Main definitions

* `Text.isElement` — the tokens, comments and blanks
* `Text.munch` — the length of the longest element that a text begins with
* `Text.tokens?` — the tokens of a text
* `Text.Longest` — an element that no more of the text belongs to
* `Text.IsWord` — the tokens that names, numbers, strings and operators are printed as

## Main results

* `Text.Longest.splitFrom_eq` — the longest element is taken off the text
* `Text.IsWord.longest_of_stop` — a token in front of a blank, a bracket, a comma, a colon or a
  semicolon is the longest
* `Text.IsWord.longest_of_dot` — a token in front of a point is the longest unless it has digits
  only
-/

namespace Declass.Text

/-! ### Elements of a text -/

/-- The characters that stand between tokens, the ends of lines among them. -/
def isSpace (c : Char) : Bool :=
  isBlank c && c != '\x85' || c == '\ufeff'

/-- The characters that a name begins with. -/
def isNameStart (c : Char) : Bool :=
  c.isAlpha || c == '$' || c == '_'

/-- The characters of a name. -/
def isNamePart (c : Char) : Bool :=
  isNameStart c || c.isDigit

/-- Names and the words of the language. -/
def isName : List Char → Bool
  | [] => false
  | c :: cs => isNameStart c && cs.all isNamePart

/-- Decimal numbers. The digits in front of the point do not begin with a needless zero. -/
def isDecimal (cs : List Char) : Bool :=
  isScientific cs && !(cs.head? == some '0' && cs.tail.head?.any Char.isDigit)

/-- The base that a letter behind a zero stands for. -/
def radix : Char → Nat
  | 'x' | 'X' => 16
  | 'o' | 'O' => 8
  | 'b' | 'B' => 2
  | _ => 0

/-- Numbers in another base. -/
def isRadix : List Char → Bool
  | '0' :: mark :: digits =>
    !digits.isEmpty && digits.all fun c => (Json.hexDigit? c).any (· < radix mark)
  | _ => false

/-- Numbers. -/
def isNumber (cs : List Char) : Bool :=
  isDecimal cs || isRadix cs

/-- String literals. -/
def isLiteral (cs : List Char) : Bool :=
  match readLiteral? (fun _ => false) cs with
  | some (_, rest) => rest.isEmpty
  | none => false

/-- The tokens that are neither names nor literals. -/
def punctuators : List (List Char) :=
  ["\x7b", "\x7d", "(", ")", "[", "]", ".", "...",
    ";", ",", "<", ">", "<=", ">=", "==", "!=", "===",
    "!==", "+", "-", "*", "/", "%", "**", "++", "--",
    "<<", ">>", ">>>", "&", "|", "^", "!", "~", "&&",
    "||", "??", "?", "?.", ":", "=", "+=", "-=", "*=",
    "/=", "%=", "**=", "<<=", ">>=", ">>>=", "&=",
    "|=", "^=", "&&=", "||=", "??=", "=>"].map String.toList

/-- Tokens. A question mark and a point in front of a digit are two tokens. -/
def isToken (cs rest : List Char) : Bool :=
  isName cs || isNumber cs || isLiteral cs ||
    punctuators.contains cs && !(cs == ['?', '.'] && rest.head?.any Char.isDigit)

/-- Whether a text ends with the mark that closes a comment and has no such mark before. -/
def closesComment : List Char → Bool
  | [] => false
  | ['*', '/'] => true
  | '*' :: '/' :: _ => false
  | _ :: cs => closesComment cs

/-- Comments. -/
def isComment : List Char → Bool
  | '/' :: '/' :: cs => cs.all fun c => !isLineTerminator c
  | '/' :: '*' :: cs => closesComment cs
  | _ => false

/-- What is passed over: comments and blanks. -/
def isGap : List Char → Bool
  | [c] => isSpace c
  | cs => isComment cs

/-- What a text is made up of. Whether something is an element can depend on what follows it. -/
def isElement (cs rest : List Char) : Bool :=
  isGap cs || isToken cs rest

/-! ### Splitting -/

/-- The length of the longest element that a text begins with, or zero. -/
def munch (text : List Char) : Nat :=
  Nat.findGreatest (fun n => isElement (text.take n) (text.drop n) = true) text.length

/-- The tokens of a text of which the first `skip` characters have been taken off already. -/
def splitFrom (skip : Nat) : List Char → Option (List String)
  | [] => some []
  | c :: cs =>
    match skip with
    | skip + 1 => splitFrom skip cs
    | 0 =>
      let length := munch (c :: cs)
      let element := (c :: cs).take length
      if length = 0 then none
      else if isGap element then splitFrom (length - 1) cs
      else (splitFrom (length - 1) cs).map (String.ofList element :: ·)

/-- The tokens of a text, or nothing if some part of it is no element. -/
def tokens? (text : String) : Option (List String) :=
  splitFrom 0 text.toList

theorem splitFrom_eq_drop (skip : Nat) (cs : List Char) :
    splitFrom skip cs = splitFrom 0 (cs.drop skip) := by
  induction cs generalizing skip with
  | nil => rw [List.drop_nil, splitFrom, splitFrom]
  | cons c cs ih =>
    cases skip with
    | zero => rfl
    | succ skip => rw [splitFrom, ih, List.drop_succ_cons]

/-- `e` is an element in front of `rest`, and nothing of `rest` belongs to it. -/
structure Longest (e rest : List Char) : Prop where
  element : isElement e rest = true
  ends {x y : List Char} : rest = x ++ y → x ≠ [] → isElement (e ++ x) y = false

theorem Longest.ne_nil {e rest : List Char} (h : Longest e rest) : e ≠ [] := by
  rintro rfl
  have hnil : isElement [] rest = false := rfl
  exact Bool.false_ne_true (hnil.symm.trans h.element)

theorem Longest.munch_eq {e rest : List Char} (h : Longest e rest) :
    munch (e ++ rest) = e.length := by
  rw [munch, Nat.findGreatest_eq_iff]
  refine ⟨by simp, fun _ => by simpa using h.element, fun n hn hle => ?_⟩
  have hends := h.ends (List.take_append_drop (n - e.length) rest).symm fun htake => by
    rw [List.take_eq_nil_iff] at htake
    rcases htake with hn' | hrest
    · omega
    · simp only [hrest, List.append_nil] at hle
      omega
  rw [List.take_append, List.drop_append, List.take_of_length_le (Nat.le_of_lt hn),
    List.drop_eq_nil_of_le (Nat.le_of_lt hn), List.nil_append, hends]
  exact Bool.false_ne_true

/-- The longest element is taken off the text. -/
theorem Longest.splitFrom_eq {e rest : List Char} (hlongest : Longest e rest) :
    splitFrom 0 (e ++ rest) =
      if isGap e then splitFrom 0 rest else (splitFrom 0 rest).map (String.ofList e :: ·) := by
  have h := hlongest.munch_eq
  obtain ⟨c, cs, rfl⟩ := List.exists_cons_of_ne_nil hlongest.ne_nil
  rw [List.cons_append] at h ⊢
  have htake : (c :: (cs ++ rest)).take (c :: cs).length = c :: cs := by
    simp
  have hrest : splitFrom ((c :: cs).length - 1) (cs ++ rest) = splitFrom 0 rest := by
    rw [splitFrom_eq_drop]
    simp
  rw [splitFrom]
  simp only [h, htake, hrest]
  rfl

/-- A token that can be continued is not the longest. -/
theorem length_lt_munch {e x y : List Char} (hx : x ≠ []) (h : isElement (e ++ x) y = true) :
    e.length < munch (e ++ (x ++ y)) := by
  have hlength : e.length < (e ++ x).length := by
    simpa using List.length_pos_iff.mpr hx
  refine Nat.lt_of_lt_of_le hlength (Nat.le_findGreatest (by simp) ?_)
  rw [← List.append_assoc, List.take_left' rfl, List.drop_left' rfl, h]

/-! ### What an element begins with -/

section Heads

variable {c d : Char} {cs ds rest : List Char}

theorem isAlphanum_of_isNameStart (h : isNameStart c = true) :
    c.isAlphanum = true ∨ c = '$' ∨ c = '_' := by
  simp only [isNameStart, Bool.or_eq_true, beq_iff_eq] at h
  rcases h with (h | h) | h
  · exact .inl (by simp [Char.isAlphanum, h])
  · exact .inr (.inl h)
  · exact .inr (.inr h)

theorem isComment_cons (h : isComment (c :: cs) = true) :
    c = '/' ∧ ∃ d ds, cs = d :: ds ∧ (d = '/' ∨ d = '*') := by
  unfold isComment at h
  split at h <;> simp_all

theorem isLiteral_cons (h : isLiteral (c :: cs) = true) : c = '"' ∨ c = '\x27' := by
  unfold isLiteral readLiteral? at h
  split at h
  · split at * <;> simp_all
  · exact absurd h Bool.false_ne_true

theorem isScientific_cons (h : isScientific (c :: cs) = true) :
    c.isDigit = true ∨ c = '.' ∧ ∃ d ds, cs = d :: ds ∧ d.isDigit = true := by
  by_cases hc : c.isDigit = true
  · exact .inl hc
  · simp only [isScientific, List.dropWhile_cons_of_neg hc] at h
    split at h
    · rename_i fraction heq
      obtain ⟨rfl, rfl⟩ := List.cons_eq_cons.mp heq
      cases cs with
      | nil => simp at h
      | cons d ds => simp_all
    · simp_all

theorem isNumber_cons (h : isNumber (c :: cs) = true) :
    c.isDigit = true ∨ c = '.' ∧ ∃ d ds, cs = d :: ds ∧ d.isDigit = true := by
  simp only [isNumber, isDecimal, Bool.or_eq_true, Bool.and_eq_true] at h
  rcases h with ⟨h, -⟩ | h
  · exact isScientific_cons h
  · unfold isRadix at h
    split at h <;> simp_all

/-! ### Characters that continue no token -/

/-- The characters that continue no token: blanks, brackets and the marks between parts of a
list. -/
def isStop (c : Char) : Bool :=
  isSpace c || ['(', ')', '[', ']', '\x7b', '\x7d', ',', ';', ':'].contains c

theorem isDigit_iff : c.isDigit = true ↔ 48 ≤ c.toNat ∧ c.toNat ≤ 57 := by
  simp only [Char.isDigit, Bool.and_eq_true, decide_eq_true_eq, UInt32.le_iff_toNat_le, ge_iff_le]
  rfl

theorem isAlpha_iff :
    c.isAlpha = true ↔ 65 ≤ c.toNat ∧ c.toNat ≤ 90 ∨ 97 ≤ c.toNat ∧ c.toNat ≤ 122 := by
  change (decide ('A'.val ≤ c.val ∧ c.val ≤ 'Z'.val) ||
    decide ('a'.val ≤ c.val) && decide (c.val ≤ 'z'.val)) = true ↔ _
  simp only [Bool.or_eq_true, Bool.and_eq_true, decide_eq_true_eq, UInt32.le_iff_toNat_le]
  rfl

theorem isStop_of_isAlphanum (h : c.isAlphanum = true) : isStop c = false := by
  have hn : (65 ≤ c.toNat ∧ c.toNat ≤ 90 ∨ 97 ≤ c.toNat ∧ c.toNat ≤ 122) ∨
      48 ≤ c.toNat ∧ c.toNat ≤ 57 := by
    rwa [Char.isAlphanum, Bool.or_eq_true, isAlpha_iff, isDigit_iff] at h
  have hspace : isSpace c = false := by
    have hbom : c ≠ '\ufeff' := by
      rintro rfl
      exact absurd hn (by decide)
    simp only [isSpace, isBlank, beq_eq_false_iff_ne.mpr hbom, Bool.or_false, Bool.and_eq_false_iff]
    left
    simp only [Bool.or_eq_false_iff, Bool.and_eq_false_iff, decide_eq_false_iff_not,
      beq_eq_false_iff_ne]
    omega
  rw [isStop, hspace, Bool.false_or, ← Bool.not_eq_true, List.contains_iff_mem]
  intro hmem
  simp only [List.mem_cons, List.not_mem_nil, or_false] at hmem
  rcases hmem with rfl | rfl | rfl | rfl | rfl | rfl
    | rfl | rfl | rfl <;> exact absurd h (by decide)

theorem isStop_of_isDigit (h : c.isDigit = true) : isStop c = false :=
  isStop_of_isAlphanum (by simp [Char.isAlphanum, h])

theorem isStop_of_isNamePart (h : isNamePart c = true) : isStop c = false := by
  simp only [isNamePart, Bool.or_eq_true] at h
  rcases h with h | h
  · rcases isAlphanum_of_isNameStart h with h | rfl | rfl
    · exact isStop_of_isAlphanum h
    · decide
    · decide
  · exact isStop_of_isDigit h

theorem isStop_of_mem_name (h : isName cs = true) (hc : c ∈ cs) : isStop c = false := by
  cases cs with
  | nil => exact absurd h Bool.false_ne_true
  | cons d ds =>
    simp only [isName, Bool.and_eq_true, List.all_eq_true] at h
    rcases List.mem_cons.mp hc with rfl | hc
    · exact isStop_of_isNamePart (by simp [isNamePart, h.1])
    · exact isStop_of_isNamePart (h.2 c hc)

theorem decimal?_isSome : (decimal? cs).isSome = true ↔ cs ≠ [] ∧ ∀ c ∈ cs, c.isDigit = true := by
  unfold decimal?
  split <;> simp_all [imp_iff_not_or]

theorem mem_exponent (h : isExponent cs = true) (hc : c ∈ cs) :
    c.isDigit = true ∨ c ∈ ['e', 'E', '+', '-'] := by
  unfold isExponent at h
  split at h
  case h_7 => simp_all
  all_goals
    have hdigits := (decimal?_isSome.mp h).2
    grind

/-- A number is made up of digits, perhaps a point and more digits, and perhaps an exponent. -/
theorem exists_of_isScientific (h : isScientific cs = true) :
    ∃ whole tail, cs = whole ++ tail ∧ (∀ c ∈ whole, c.isDigit = true) ∧
      (isExponent tail = true ∨ ∃ fraction exponent, tail = '.' :: (fraction ++ exponent) ∧
        (∀ c ∈ fraction, c.isDigit = true) ∧ isExponent exponent = true) := by
  refine ⟨cs.takeWhile Char.isDigit, cs.dropWhile Char.isDigit, by simp,
    List.all_eq_true.mp List.all_takeWhile, ?_⟩
  simp only [isScientific] at h
  split at h
  · rename_i fraction hrest
    exact .inr ⟨fraction.takeWhile Char.isDigit,
      fraction.dropWhile Char.isDigit, by simpa using hrest,
      List.all_eq_true.mp List.all_takeWhile, (Bool.and_eq_true_iff.mp h).2⟩
  · exact .inl (Bool.and_eq_true_iff.mp h).2

theorem isStop_of_mem_scientific (h : isScientific cs = true) (hc : c ∈ cs) : isStop c = false := by
  have hexponent {cs : List Char} (h : isExponent cs = true) (hc : c ∈ cs) : isStop c = false := by
    rcases mem_exponent h hc with hc | hc
    · exact isStop_of_isDigit hc
    · simp only [List.mem_cons, List.not_mem_nil, or_false] at hc
      rcases hc with rfl | rfl | rfl | rfl <;> decide
  obtain ⟨whole, tail, rfl, hwhole, htail⟩ := exists_of_isScientific h
  rcases List.mem_append.mp hc with hc | hc
  · exact isStop_of_isDigit (hwhole c hc)
  · rcases htail with htail | ⟨fraction, exponent, rfl, hfraction, htail⟩
    · exact hexponent htail hc
    · rw [List.mem_cons, List.mem_append] at hc
      rcases hc with rfl | hc | hc
      · decide
      · exact isStop_of_isDigit (hfraction c hc)
      · exact hexponent htail hc

theorem isAlphanum_of_hexDigit (h : (Json.hexDigit? c).isSome = true) : c.isAlphanum = true := by
  have hle (a b : Char) : a ≤ b ↔ a.toNat ≤ b.toNat := UInt32.le_iff_toNat_le
  rw [Char.isAlphanum, Bool.or_eq_true, isAlpha_iff, isDigit_iff]
  simp only [Json.hexDigit?, hle] at h
  change (if 48 ≤ c.toNat ∧ c.toNat ≤ 57 then some _
    else if 97 ≤ c.toNat ∧ c.toNat ≤ 102 then some _
    else if 65 ≤ c.toNat ∧ c.toNat ≤ 70 then some _ else none).isSome = true at h
  split at h
  · omega
  · split at h
    · omega
    · split at h
      · omega
      · exact absurd h Bool.false_ne_true

/-- A number in another base is made up of letters and digits. -/
theorem isAlphanum_of_mem_radix (h : isRadix cs = true) (hc : c ∈ cs) : c.isAlphanum = true := by
  unfold isRadix at h
  split at h
  · rename_i mark digits
    simp only [Bool.and_eq_true, List.all_eq_true, Option.any_eq_true] at h
    obtain ⟨hne, hdigits⟩ := h
    have hmark : 0 < radix mark := by
      obtain ⟨d, ds, rfl⟩ := List.exists_cons_of_ne_nil (by simpa using hne)
      obtain ⟨value, -, hvalue⟩ := hdigits d List.mem_cons_self
      exact Nat.zero_lt_of_lt (of_decide_eq_true hvalue)
    simp only [List.mem_cons] at hc
    rcases hc with rfl | rfl | hc
    · decide
    · revert hmark
      unfold radix
      split <;> simp +decide
    · obtain ⟨value, hvalue, -⟩ := hdigits c hc
      exact isAlphanum_of_hexDigit (by rw [hvalue]; rfl)
  · exact absurd h Bool.false_ne_true

theorem isStop_of_mem_number (h : isNumber cs = true) (hc : c ∈ cs) : isStop c = false := by
  simp only [isNumber, isDecimal, Bool.or_eq_true, Bool.and_eq_true] at h
  rcases h with ⟨h, -⟩ | h
  · exact isStop_of_mem_scientific h hc
  · exact isStop_of_isAlphanum (isAlphanum_of_mem_radix h hc)

/-- Only digits can stand in front of a point in a number. -/
theorem isDigit_of_isNumber (h : isNumber (cs ++ '.' :: ds) = true) (hc : c ∈ cs) :
    c.isDigit = true := by
  simp only [isNumber, isDecimal, Bool.or_eq_true, Bool.and_eq_true] at h
  have hpoint : '.' ∈ cs ++ '.' :: ds := by simp
  have hdigits {cs : List Char} (h : ∀ c ∈ cs, c.isDigit = true) : '.' ∉ cs := fun hc =>
    absurd (h _ hc) (by decide)
  have hexponent {cs : List Char} (h : isExponent cs = true) : '.' ∉ cs := fun hc =>
    absurd (mem_exponent h hc) (by decide)
  rcases h with ⟨h, -⟩ | h
  · obtain ⟨whole, tail, heq, hwhole, htail⟩ := exists_of_isScientific h
    rcases htail with htail | ⟨fraction, exponent, rfl, hfraction, htail⟩
    · rw [heq, List.mem_append] at hpoint
      exact (hpoint.elim (hdigits hwhole) (hexponent htail)).elim
    · have htail : '.' ∉ fraction ++ exponent := by
        rw [List.mem_append]
        exact fun h => h.elim (hdigits hfraction) (hexponent htail)
      obtain ⟨rfl, -, -⟩ := (List.append_cons_inj_of_notMem (hdigits hwhole) htail).mp heq.symm
      exact hwhole c hc
  · exact absurd (isAlphanum_of_mem_radix h hpoint) (by decide)

/-! ### Elements by their first character -/

/-- The characters that punctuators begin with. -/
def marks : List Char :=
  "\x7b\x7d()[].;,<>=!+-*/%&|^~?:".toList

def isMark (c : Char) : Bool :=
  marks.contains c

theorem isMark_of_mem_punctuators (h : c :: cs ∈ punctuators) : isMark c = true := by
  have hall : (punctuators.all fun p => p.head?.all isMark) = true := by decide
  exact List.all_eq_true.mp hall _ h

theorem isStop_of_mem_punctuators (h : c :: cs ∈ punctuators) (hd : d ∈ cs) : isStop d = false := by
  have hall : (punctuators.all fun p => p.tail.all fun d => !isStop d) = true := by decide
  simpa using List.all_eq_true.mp (List.all_eq_true.mp hall _ h) d hd

theorem isElement_cons (h : isElement (c :: cs) rest = true) :
    (cs = [] ∧ isSpace c = true) ∨ isComment (c :: cs) = true ∨ isName (c :: cs) = true ∨
      isNumber (c :: cs) = true ∨ isLiteral (c :: cs) = true ∨ c :: cs ∈ punctuators := by
  simp only [isElement, isToken, Bool.or_eq_true, Bool.and_eq_true, List.contains_iff_mem] at h
  rcases h with h | ((h | h) | h) | ⟨h, -⟩
  · cases cs with
    | nil => exact .inl ⟨rfl, h⟩
    | cons d ds => exact .inr (.inl h)
  · exact .inr (.inr (.inl h))
  · exact .inr (.inr (.inr (.inl h)))
  · exact .inr (.inr (.inr (.inr (.inl h))))
  · exact .inr (.inr (.inr (.inr (.inr h))))

/-- Behind the first character of an element that is no literal and no comment there is no stop. -/
theorem isStop_of_mem_element (h : isElement (c :: cs) rest = true) (hd : d ∈ cs) :
    isStop d = false ∨ isLiteral (c :: cs) = true ∨ isComment (c :: cs) = true := by
  rcases isElement_cons h with ⟨rfl, -⟩ | h | h | h | h | h
  · exact absurd hd List.not_mem_nil
  · exact .inr (.inr h)
  · simp only [isName, Bool.and_eq_true, List.all_eq_true] at h
    exact .inl (isStop_of_isNamePart (h.2 d hd))
  · exact .inl (isStop_of_mem_number h (List.mem_cons_of_mem _ hd))
  · exact .inr (.inl h)
  · exact .inl (isStop_of_mem_punctuators h hd)

theorem isNamePart_of_isMark (h : isMark c = true) : isNamePart c = false := by
  have hall : (marks.all fun c => !isNamePart c) = true := by decide
  simpa using List.all_eq_true.mp hall c (List.contains_iff_mem.mp h)

theorem isSpace_of_isMark (h : isMark c = true) : isSpace c = false := by
  have hall : (marks.all fun c => !isSpace c) = true := by decide
  simpa using List.all_eq_true.mp hall c (List.contains_iff_mem.mp h)

theorem isDigit_of_isNameStart (h : isNameStart c = true) : c.isDigit = false := by
  simp only [isNameStart, Bool.or_eq_true, beq_iff_eq] at h
  rcases h with (h | rfl) | rfl
  · rw [isAlpha_iff] at h
    rw [← Bool.not_eq_true, isDigit_iff]
    omega
  · decide
  · decide

theorem all_isDigit_of_isName (h : isName cs = true) : cs.all Char.isDigit = false := by
  cases cs with
  | nil => exact absurd h Bool.false_ne_true
  | cons a as =>
    simp only [isName, Bool.and_eq_true] at h
    rw [List.all_cons, isDigit_of_isNameStart h.1, Bool.false_and]

theorem isName_of_isElement (hc : isNameStart c = true) (h : isElement (c :: cs) rest = true) :
    isName (c :: cs) = true := by
  have hpart : isNamePart c = true := by simp [isNamePart, hc]
  rcases isElement_cons h with ⟨-, h⟩ | h | h | h | h | h
  · have hstop := isStop_of_isNamePart hpart
    simp [isStop, h] at hstop
  · obtain ⟨rfl, -⟩ := isComment_cons h
    exact absurd hc (by decide)
  · exact h
  · rcases isNumber_cons h with h | ⟨rfl, -⟩
    · simp [isDigit_of_isNameStart hc] at h
    · exact absurd hc (by decide)
  · rcases isLiteral_cons h with rfl | rfl <;> exact absurd hc (by decide)
  · simp [isNamePart_of_isMark (isMark_of_mem_punctuators h)] at hpart

theorem isNumber_of_isElement (hc : c.isDigit = true) (h : isElement (c :: cs) rest = true) :
    isNumber (c :: cs) = true := by
  have hpart : isNamePart c = true := by simp [isNamePart, hc]
  rcases isElement_cons h with ⟨-, h⟩ | h | h | h | h | h
  · have hstop := isStop_of_isNamePart hpart
    simp [isStop, h] at hstop
  · obtain ⟨rfl, -⟩ := isComment_cons h
    exact absurd hc (by decide)
  · simp only [isName, Bool.and_eq_true] at h
    simp [isDigit_of_isNameStart h.1] at hc
  · exact h
  · rcases isLiteral_cons h with rfl | rfl <;> exact absurd hc (by decide)
  · simp [isNamePart_of_isMark (isMark_of_mem_punctuators h)] at hpart

theorem mem_punctuators_of_isElement (hc : isMark c = true) (hslash : c ≠ '/')
    (h : isElement (c :: cs) rest = true) :
    c :: cs ∈ punctuators ∨ c = '.' ∧ isNumber (c :: cs) = true := by
  have hpart := isNamePart_of_isMark hc
  simp only [isNamePart, Bool.or_eq_false_iff] at hpart
  rcases isElement_cons h with ⟨-, h⟩ | h | h | h | h | h
  · simp [isSpace_of_isMark hc] at h
  · exact absurd (isComment_cons h).1 hslash
  · simp [isName, hpart.1] at h
  · rcases isNumber_cons h with hdigit | ⟨hdot, -⟩
    · simp [hpart.2] at hdigit
    · exact .inr ⟨hdot, h⟩
  · rcases isLiteral_cons h with rfl | rfl <;> exact absurd hc (by decide)
  · exact .inl h

theorem eq_dot_of_mem_punctuators (h : '.' :: d :: ds ∈ punctuators) : d = '.' := by
  have hall :
      (punctuators.all fun p => p.head? != some '.' || p.tail.head?.all (· == '.')) = true := by
    decide
  simpa using List.all_eq_true.mp hall _ h

theorem isNumber_of_isElement_dot (hd : d.isDigit = true)
    (h : isElement ('.' :: d :: ds) rest = true) :
    isNumber ('.' :: d :: ds) = true := by
  rcases mem_punctuators_of_isElement (by decide) (by decide) h with h | ⟨-, h⟩
  · rw [eq_dot_of_mem_punctuators h] at hd
    exact absurd hd (by decide)
  · exact h

theorem isLiteral_of_isElement (h : isElement ('"' :: cs) rest = true) :
    isLiteral ('"' :: cs) = true := by
  rcases isElement_cons h with ⟨-, h⟩ | h | h | h | h | h
  · exact absurd h (by decide)
  · exact absurd (isComment_cons h).1 (by decide)
  · simp only [isName, Bool.and_eq_true] at h
    exact absurd h.1 (by decide)
  · rcases isNumber_cons h with h | ⟨h, -⟩ <;> exact absurd h (by decide)
  · exact h
  · exact absurd (isMark_of_mem_punctuators h) (by decide)

end Heads

/-! ### Words -/

/-- The tokens that names, numbers and strings are printed as, and some that are given. -/
inductive IsWord (marks : List (List Char)) : String → Prop where
  | name {w : String} (h : isName w.toList = true) : IsWord marks w
  | decimal {w : String} (h : isDecimal w.toList = true) : IsWord marks w
  | quoted {v : String} (h : v.toList.all (legible fun _ => false) = true) : IsWord marks (quote v)
  | mark {w : String} (h : w.toList ∈ marks) : IsWord marks w

/-- The first character of a name or a number. -/
theorem exists_head {cs : List Char} (h : isName cs = true ∨ isDecimal cs = true) :
    ∃ a as, cs = a :: as ∧ (isNamePart a || a == '.') = true := by
  cases cs with
  | nil => exact absurd h (by decide)
  | cons a as =>
    refine ⟨a, as, rfl, ?_⟩
    rcases h with h | h
    · simp only [isName, Bool.and_eq_true] at h
      simp [isNamePart, h.1]
    · have hnumber : isNumber (a :: as) = true := by simp [isNumber, h]
      rcases isNumber_cons hnumber with hdigit | ⟨rfl, -⟩
      · simp [isNamePart, hdigit]
      · decide

/-- A printed literal ends where it is closed. -/
theorem longest_quote {v : String} (h : v.toList.all (legible fun _ => false) = true)
    (rest : List Char) : Longest (quote v).toList rest := by
  have hread (rest : List Char) : isLiteral ((quote v).toList ++ rest) = rest.isEmpty := by
    rw [isLiteral, readLiteral?_quote, if_pos h]
  refine ⟨?_, fun {x y} _ hx => ?_⟩
  · have hliteral := hread []
    rw [List.append_nil] at hliteral
    simp [isElement, isToken, hliteral]
  · have hliteral := hread x
    rw [← Bool.not_eq_true]
    intro helement
    rw [toList_quote, List.cons_append] at helement hliteral
    rw [isLiteral_of_isElement helement] at hliteral
    exact hx (List.isEmpty_iff.mp hliteral.symm)

theorem Longest.of_nil {e : List Char} (h : isElement e [] = true) : Longest e [] :=
  ⟨h, fun hxy hx => absurd (List.append_eq_nil_iff.mp hxy.symm).1 hx⟩

/-- What an element in front of `c` has to meet to be the longest one there. -/
theorem longest_cons {e rest : List Char} {c : Char} (h : isElement e (c :: rest) = true)
    (hends : ∀ x y, rest = x ++ y → isElement (e ++ c :: x) y = false) : Longest e (c :: rest) := by
  refine ⟨h, fun {x y} hxy hx => ?_⟩
  obtain ⟨d, ds, rfl⟩ := List.exists_cons_of_ne_nil hx
  obtain ⟨rfl, hrest⟩ := List.cons_eq_cons.mp hxy
  exact hends ds y hrest

theorem IsWord.isElement {w : String} (hw : IsWord punctuators w) {rest : List Char}
    (hrest : ∀ c ∈ rest.head?, c.isDigit = false) : isElement w.toList rest = true := by
  cases hw with
  | name h => simp [Text.isElement, isToken, h]
  | decimal h => simp [Text.isElement, isToken, isNumber, h]
  | quoted h => exact (longest_quote h rest).element
  | mark h =>
    have hdigit : rest.head?.any Char.isDigit = false := by
      cases hhead : rest.head? with
      | none => rfl
      | some c => exact hrest c hhead
    simp [Text.isElement, isToken, h, hdigit]

/-- A stop ends what does not begin as a literal or a comment. -/
theorem isElement_append_stop {a c : Char} {as x y : List Char} (hquote : a ≠ '"' ∧ a ≠ '\x27')
    (hcomment : a = '/' → ∀ d ∈ as.head?, d ≠ '/' ∧ d ≠ '*') (hc : isStop c = true) :
    isElement (a :: (as ++ c :: x)) y = false := by
  rw [← Bool.not_eq_true]
  intro h
  rcases isStop_of_mem_element h (d := c) (by simp) with h | h | h
  · simp [hc] at h
  · exact (isLiteral_cons h).elim hquote.1 hquote.2
  · obtain ⟨ha, d, ds, heq, hd⟩ := isComment_cons h
    cases as with
    | nil =>
      obtain ⟨rfl, -⟩ := List.cons_eq_cons.mp heq
      rcases hd with rfl | rfl <;> exact absurd hc (by decide)
    | cons b bs =>
      obtain ⟨rfl, -⟩ := List.cons_eq_cons.mp heq
      exact hd.elim (hcomment ha b rfl).1 (hcomment ha b rfl).2

/-- **A token in front of a stop.** Nothing of what follows belongs to it. -/
theorem IsWord.longest_of_stop {w : String} (hw : IsWord punctuators w) {rest : List Char}
    (hrest : ∀ c ∈ rest.head?, isStop c = true) : Longest w.toList rest := by
  have helement : Text.isElement w.toList rest = true := hw.isElement fun c hc => by
    rw [← Bool.not_eq_true]
    intro hdigit
    have hstop := hrest c hc
    simp [isStop_of_isDigit hdigit] at hstop
  cases rest with
  | nil => exact .of_nil helement
  | cons c rest =>
    have hc : isStop c = true := hrest c rfl
    have hplain (h : isName w.toList = true ∨ isDecimal w.toList = true) :
        Longest w.toList (c :: rest) := by
      obtain ⟨a, as, hw, ha⟩ := exists_head h
      refine longest_cons helement fun x y _ => ?_
      rw [hw]
      refine isElement_append_stop ⟨?_, ?_⟩ ?_ hc <;> rintro rfl <;> exact absurd ha (by decide)
    cases hw with
    | quoted h => exact longest_quote h _
    | name h => exact hplain (.inl h)
    | decimal h => exact hplain (.inr h)
    | mark h =>
      refine longest_cons helement fun x y _ => ?_
      cases hw : w.toList with
      | nil => exact absurd (hw ▸ h) (by decide)
      | cons a as =>
        rw [hw] at h
        have hmark := isMark_of_mem_punctuators h
        refine isElement_append_stop ⟨?_, ?_⟩ ?_ hc
        · rintro rfl
          exact absurd hmark (by decide)
        · rintro rfl
          exact absurd hmark (by decide)
        · rintro rfl
          have hall : (punctuators.all fun p => p.head? != some '/' ||
              p.tail.head?.all fun d => d != '/' && d != '*') = true := by decide
          simpa [Option.all_eq_true] using List.all_eq_true.mp hall _ h

theorem isGap_cons_cons {a b : Char} (ha : a ≠ '/') (cs : List Char) :
    isGap (a :: b :: cs) = false := by
  rw [← Bool.not_eq_true]
  exact fun h => ha (isComment_cons h).1

/-- No token is passed over. -/
theorem IsWord.isGap_eq_false {w : String} (hw : IsWord punctuators w) :
    isGap w.toList = false := by
  have hplain (h : isName w.toList = true ∨ isDecimal w.toList = true) :
      isGap w.toList = false := by
    obtain ⟨a, as, hw, ha⟩ := exists_head h
    rw [hw]
    cases as with
    | cons b bs =>
      refine isGap_cons_cons ?_ bs
      rintro rfl
      exact absurd ha (by decide)
    | nil =>
      have hstop : isStop a = false := by
        rcases Bool.or_eq_true_iff.mp ha with ha | ha
        · exact isStop_of_isNamePart ha
        · rw [beq_iff_eq.mp ha]
          decide
      exact (Bool.or_eq_false_iff.mp hstop).1
  cases hw with
  | name h => exact hplain (.inl h)
  | decimal h => exact hplain (.inr h)
  | @quoted v h =>
    rw [toList_quote]
    cases v.toList.flatMap escape with
    | nil => exact isGap_cons_cons (by decide) _
    | cons d ds => exact isGap_cons_cons (by decide) _
  | mark h =>
    have hall : (punctuators.all fun p => !isGap p) = true := by decide
    simpa using List.all_eq_true.mp hall _ h

/-- A blank is an element by itself. -/
theorem longest_space {c : Char} (hc : isSpace c = true) (rest : List Char) : Longest [c] rest := by
  have hstop : isStop c = true := by simp [isStop, hc]
  refine ⟨by simp [isElement, isGap, hc], fun {x y} _ hx => ?_⟩
  rw [← Bool.not_eq_true]
  intro h
  rcases isElement_cons h with ⟨h, -⟩ | h | h | h | h | h
  · exact hx h
  · obtain ⟨rfl, -⟩ := isComment_cons h
    exact absurd hc (by decide)
  · simp only [isName, Bool.and_eq_true] at h
    have hpart : isNamePart c = true := by simp [isNamePart, h.1]
    simp [isStop_of_isNamePart hpart] at hstop
  · simp [isStop_of_mem_number h List.mem_cons_self] at hstop
  · rcases isLiteral_cons h with rfl | rfl <;> exact absurd hc (by decide)
  · simp [isSpace_of_isMark (isMark_of_mem_punctuators h)] at hc

/-! ### Tokens side by side -/

/-- The marks that no token continues. -/
def brackets : List (List Char) :=
  ["(", ")", "[", "]", "\x7b", "\x7d", ",", ";", ":", "..."].map String.toList

/-- The operators that are printed in front of their operand without a blank. -/
def signs : List (List Char) :=
  ["+", "-", "!", "~", "++", "--"].map String.toList

/-- The marks that can be printed beside other tokens without a blank. -/
def firmMarks : List (List Char) :=
  brackets ++ signs

theorem firmMarks_subset {w : List Char} (h : w ∈ firmMarks) : w ∈ punctuators := by
  have hall : (firmMarks.all fun w => punctuators.contains w) = true := by decide
  exact List.contains_iff_mem.mp (List.all_eq_true.mp hall w h)

theorem IsWord.of_firm {w : String} (h : IsWord firmMarks w) : IsWord punctuators w := by
  cases h with
  | name h => exact .name h
  | decimal h => exact .decimal h
  | quoted h => exact .quoted h
  | mark h => exact .mark (firmMarks_subset h)

theorem isElement_of_firm {w : List Char} (h : w ∈ firmMarks) (rest : List Char) :
    isElement w rest = true := by
  have hall : (firmMarks.all fun w => w != ['?', '.']) = true := by decide
  have hne : w ≠ ['?', '.'] := by simpa using List.all_eq_true.mp hall w h
  simp [isElement, isToken, firmMarks_subset h, hne]

/-- What continues one of these marks to an element continues it to another mark. -/
theorem mem_punctuators_of_firm {w x y : List Char} (hw : w ∈ firmMarks)
    (h : isElement (w ++ x) y = true) : w ++ x ∈ punctuators := by
  have hall : (firmMarks.all fun w => w.head?.any (fun c => isMark c && c != '/') &&
      (w.head? != some '.' || w.tail.head?.any fun d => !d.isDigit)) = true := by decide
  have hhead := List.all_eq_true.mp hall w hw
  cases w with
  | nil => simp at hhead
  | cons c cs =>
    simp only [List.head?_cons, Option.any_some, Bool.and_eq_true, bne_iff_ne,
      Bool.or_eq_true] at hhead
    obtain ⟨⟨hmark, hslash⟩, hdot⟩ := hhead
    rcases mem_punctuators_of_isElement hmark hslash h with h | ⟨rfl, h⟩
    · exact h
    · rcases isNumber_cons h with h | ⟨-, d, ds, heq, hd⟩
      · exact absurd h (by decide)
      · cases cs with
        | nil => simp at hdot
        | cons b bs =>
          obtain ⟨rfl, -⟩ := List.cons_eq_cons.mp heq
          simp [hd] at hdot

/-- A bracket is the longest token at its place. -/
theorem longest_bracket {w : List Char} (hw : w ∈ brackets) (rest : List Char) :
    Longest w rest := by
  have hfirm : w ∈ firmMarks := List.mem_append_left _ hw
  refine ⟨isElement_of_firm hfirm rest, fun {x y} _ hx => ?_⟩
  rw [← Bool.not_eq_true]
  intro h
  have hall :
      (brackets.all fun w => punctuators.all fun p => !w.isPrefixOf p || p == w) = true := by
    decide
  have heq := List.all_eq_true.mp (List.all_eq_true.mp hall w hw) _
    (mem_punctuators_of_firm hfirm h)
  have hstart : w.isPrefixOf (w ++ x) = true :=
    List.isPrefixOf_iff_prefix.mpr (List.prefix_append w x)
  simp [hstart, hx] at heq

/-- A sign is the longest token before what does not continue it. -/
theorem longest_sign {w : List Char} {c : Char} (hw : w ∈ signs) (heq : c ≠ '=')
    (hsign : ¬ (w = [c] ∧ (c = '+' ∨ c = '-'))) (rest : List Char) : Longest w (c :: rest) := by
  have hfirm : w ∈ firmMarks := List.mem_append_right _ hw
  refine longest_cons (isElement_of_firm hfirm _) fun x y _ => ?_
  rw [← Bool.not_eq_true]
  intro h
  have hall : (signs.all fun w => punctuators.all fun p => !w.isPrefixOf p ||
      (p.drop w.length).head?.all fun c => c == '=' || w == [c] && (c == '+' || c == '-')) =
        true := by
    decide
  have hnext := List.all_eq_true.mp (List.all_eq_true.mp hall w hw) _
    (mem_punctuators_of_firm hfirm h)
  have hstart : w.isPrefixOf (w ++ c :: x) = true :=
    List.isPrefixOf_iff_prefix.mpr (List.prefix_append w (c :: x))
  simp only [hstart, List.drop_left, List.head?_cons, Option.all_some, Bool.not_true, Bool.false_or,
    Bool.or_eq_true, Bool.and_eq_true, beq_iff_eq] at hnext
  exact hnext.elim heq hsign

/-- A sign is continued by a second one. -/
theorem length_lt_munch_sign {c : Char} (hc : c = '+' ∨ c = '-') (rest : List Char) :
    1 < munch (c :: c :: rest) := by
  have helement : isElement ([c] ++ [c]) rest = true := by
    rcases hc with rfl | rfl
    · exact isElement_of_firm (by decide) rest
    · exact isElement_of_firm (by decide) rest
  exact length_lt_munch (List.cons_ne_nil c []) helement

/-- A token that can stand beside others does not begin with an equals sign. -/
theorem IsWord.head_ne {word : String} (h : IsWord firmMarks word) :
    ∃ c cs, word.toList = c :: cs ∧ c ≠ '=' := by
  have hplain (h : isName word.toList = true ∨ isDecimal word.toList = true) :
      ∃ c cs, word.toList = c :: cs ∧ c ≠ '=' := by
    obtain ⟨c, cs, hword, hc⟩ := exists_head h
    refine ⟨c, cs, hword, ?_⟩
    rintro rfl
    exact absurd hc (by decide)
  cases h with
  | name h => exact hplain (.inl h)
  | decimal h => exact hplain (.inr h)
  | quoted h => exact ⟨'"', _, toList_quote _, by decide⟩
  | mark h =>
    have hall : (firmMarks.all fun w => w.head?.any (· != '=')) = true := by decide
    have hhead := List.all_eq_true.mp hall _ h
    cases hword : word.toList with
    | nil => simp [hword] at hhead
    | cons c cs => exact ⟨c, cs, rfl, by simpa [hword] using hhead⟩

/-- The only token that ends with a semicolon is the semicolon. -/
theorem IsWord.getLast?_eq {word : String} (h : IsWord firmMarks word) :
    ∃ c, word.toList.getLast? = some c ∧ (c = ';' ↔ word = ";") := by
  have hplain (hne : word.toList ≠ []) (hstop : ∀ c ∈ word.toList, isStop c = false) :
      ∃ c, word.toList.getLast? = some c ∧ (c = ';' ↔ word = ";") := by
    refine ⟨_, List.getLast?_eq_some_getLast hne, iff_of_false (fun hlast => ?_) ?_⟩
    · exact absurd (hstop _ (List.getLast_mem hne)) (by rw [hlast]; decide)
    · rintro rfl
      exact absurd (hstop ';' (by decide)) (by decide)
  cases h with
  | name h =>
    exact hplain (fun hnil => by simp [hnil, isName] at h) fun c => isStop_of_mem_name h
  | decimal h =>
    have hnumber : isNumber word.toList = true := by simp [isNumber, h]
    exact hplain (fun hnil => by rw [hnil] at h; exact absurd h (by decide)) fun c =>
      isStop_of_mem_number hnumber
  | @quoted v h =>
    have hlast : (quote v).toList.getLast? = some '"' := by
      rw [toList_quote, ← List.cons_append, List.getLast?_concat]
    refine ⟨'"', hlast, iff_of_false (by decide) fun hquote => ?_⟩
    have hlist := congrArg String.toList hquote
    rw [toList_quote] at hlist
    exact absurd (List.cons_eq_cons.mp hlist).1 (by decide)
  | mark h =>
    have hall :
        (firmMarks.all fun w => w.getLast?.any fun c => (c == ';') == (w == [';'])) = true := by
      decide
    have hword := List.all_eq_true.mp hall _ h
    cases hlast : word.toList.getLast? with
    | none => simp [hlast] at hword
    | some c =>
      refine ⟨c, rfl, ?_⟩
      rw [hlast, Option.any_some] at hword
      rw [← beq_iff_eq, beq_iff_eq.mp hword, beq_iff_eq, ← String.toList_inj]
      rfl

/-- A point in front of a name is a token by itself. -/
theorem longest_dot {n : List Char} (hn : isName n = true) (rest : List Char) :
    Longest ['.'] (n ++ rest) := by
  cases n with
  | nil => exact absurd hn Bool.false_ne_true
  | cons a as =>
    simp only [isName, Bool.and_eq_true] at hn
    refine longest_cons rfl fun x y _ => ?_
    rw [← Bool.not_eq_true]
    intro h
    rcases mem_punctuators_of_isElement (by decide) (by decide) h with h | ⟨-, h⟩
    · rw [eq_dot_of_mem_punctuators h] at hn
      exact absurd hn.1 (by decide)
    · rcases isNumber_cons h with h | ⟨-, d, ds, heq, hd⟩
      · exact absurd h (by decide)
      · obtain ⟨rfl, -⟩ := List.cons_eq_cons.mp heq
        simp [isDigit_of_isNameStart hn.1] at hd

/-- **A token in front of a point.** The point belongs to a number that has digits only, and to no
other token. -/
theorem IsWord.longest_of_dot {w : String} (hw : IsWord firmMarks w)
    (hdigits : ¬ ∀ c ∈ w.toList, c.isDigit = true) (rest : List Char) :
    Longest w.toList ('.' :: rest) := by
  have helement : Text.isElement w.toList ('.' :: rest) = true :=
    hw.of_firm.isElement fun c hc => by
    obtain rfl := Option.some.inj hc
    decide
  cases hw with
  | quoted h => exact longest_quote h _
  | name h =>
    refine longest_cons helement fun x y _ => ?_
    rw [← Bool.not_eq_true]
    intro hlonger
    cases hw : w.toList with
    | nil => simp [hw, isName] at h
    | cons a as =>
      simp only [hw, isName, List.cons_append, Bool.and_eq_true] at h hlonger
      have hname := isName_of_isElement h.1 hlonger
      simp [isName] at hname
      exact absurd hname.2.2.1 (by decide)
  | decimal h =>
    refine longest_cons helement fun x y _ => ?_
    rw [← Bool.not_eq_true]
    intro hlonger
    have hnumber : isNumber (w.toList ++ '.' :: x) = true := by
      cases hw : w.toList with
      | nil => exact absurd (hw ▸ h) (by decide)
      | cons a as =>
        rw [hw] at h hlonger
        have hnumber : isNumber (a :: as) = true := by simp [isNumber, h]
        rcases isNumber_cons hnumber with hdigit | ⟨rfl, d, ds, rfl, hdigit⟩
        · exact isNumber_of_isElement hdigit hlonger
        · exact isNumber_of_isElement_dot hdigit hlonger
    exact hdigits fun c => isDigit_of_isNumber hnumber
  | mark h =>
    refine longest_cons helement fun x y _ => ?_
    rw [← Bool.not_eq_true]
    intro hlonger
    have hall :
        (firmMarks.all fun w => punctuators.all fun p => !(w ++ ['.']).isPrefixOf p) = true := by
      decide
    have hmem := mem_punctuators_of_firm h hlonger
    have hnot := List.all_eq_true.mp (List.all_eq_true.mp hall _ h) _ hmem
    have hstart : (w.toList ++ ['.']).isPrefixOf (w.toList ++ '.' :: x) = true :=
      List.isPrefixOf_iff_prefix.mpr ⟨x, by simp⟩
    simp [hstart] at hnot

/-- A point behind digits is read with them. -/
theorem length_lt_munch_dot {w : List Char} (hw : isDecimal w = true)
    (hdigits : ∀ c ∈ w, c.isDigit = true) (rest : List Char) :
    w.length < munch (w ++ '.' :: rest) := by
  have hdecimal : isDecimal (w ++ ['.']) = true := by
    have hrest : (w ++ ['.']).dropWhile Char.isDigit = ['.'] := by
      rw [List.dropWhile_append_of_pos hdigits]
      rfl
    simp only [isDecimal, Bool.and_eq_true] at hw ⊢
    cases w with
    | nil => exact absurd hw.1 (by decide)
    | cons a as =>
      refine ⟨?_, ?_⟩
      · simp only [isScientific, hrest]
        simp [hdigits a List.mem_cons_self, isExponent]
      · cases as with
        | nil => simp +decide
        | cons b bs => simpa using hw.2
  have helement : isElement (w ++ ['.']) rest = true := by
    simp [isElement, isToken, isNumber, hdecimal]
  exact length_lt_munch (List.cons_ne_nil _ _) helement

/-- A text that begins with more than the token `e` is not split into `e` and other tokens. -/
theorem splitFrom_ne {a : Char} {as rest : List Char} (ha : a ≠ '/')
    (h : (a :: as).length < munch (a :: as ++ rest)) (words : List String) :
    splitFrom 0 (a :: as ++ rest) ≠ some (String.ofList (a :: as) :: words) := by
  intro hsplit
  have hle : munch (a :: as ++ rest) ≤ (a :: as ++ rest).length := Nat.findGreatest_le _
  have hlength := List.length_take_of_le hle
  have hgap : isGap ((a :: as ++ rest).take (munch (a :: as ++ rest))) = false := by
    obtain ⟨n, hn⟩ : ∃ n, munch (a :: as ++ rest) = n + 2 :=
      Nat.exists_eq_add_of_le' (by rw [List.length_cons] at h; omega)
    obtain ⟨b, bs, htail⟩ : ∃ b bs, as ++ rest = b :: bs := by
      refine List.exists_cons_of_ne_nil fun hnil => ?_
      rw [hn, List.cons_append, hnil, List.length_singleton] at hle
      omega
    rw [hn, List.cons_append, htail]
    exact isGap_cons_cons ha _
  rw [List.cons_append, splitFrom] at hsplit
  simp only [← List.cons_append, hgap, Bool.false_eq_true, if_false] at hsplit
  split at hsplit
  · exact absurd hsplit (by simp)
  · obtain ⟨words', -, hwords⟩ := Option.map_eq_some_iff.mp hsplit
    have heq := String.ofList_injective (List.cons_eq_cons.mp hwords).1
    rw [heq] at hlength
    omega

end Declass.Text
