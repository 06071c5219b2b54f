import Declass.Code.Text
import Declass.Json.Reader

/-!
# String literals

A string literal of the language stands between quotes of one of two kinds. It denotes a list of
code units, for an escape may give half of a surrogate pair. A line may not end in a literal, unless
it is continued behind a backslash; which characters end a line and must not stand in a literal as
they are is not the same in all editions of the language, so it is a parameter of the reader here.

Printing escapes three characters. It keeps the rest as it is, and among that rest there are
characters which end a line. So a printed literal always ends where it should and, if it can be read
at all, denotes its value; it can be read iff the value has none of these characters.

## Main definitions

* `Text.isLineTerminator`, `Text.codeUnits`
* `Text.readLiteral?` — the value of a string literal, and what follows it
* `Shape.quoted?` — the string that is printed as a part of a construct

## Main results

* `Text.codeUnits_injective` — a text is determined by its code units
* `Text.readLiteral?_quote` — what is read of a printed literal
* `Store.text_quotes` — the literals in the text of a node
-/

namespace Declass.Text

/-! ### Code units -/

/-- The code units of a character. -/
def units (c : Char) : List Nat :=
  if c.toNat < 0x10000 then [c.toNat]
  else [0xD800 + (c.toNat - 0x10000) / 0x400, 0xDC00 + (c.toNat - 0x10000) % 0x400]

/-- The code units of a text. -/
def codeUnits (text : String) : List Nat :=
  text.toList.flatMap units

/-- No character is half of a surrogate pair. -/
theorem toNat_lt_or_le (c : Char) : c.toNat < 0xD800 ∨ 0xE000 ≤ c.toNat ∧ c.toNat < 0x110000 := by
  have := c.valid
  simp only [UInt32.isValidChar, Nat.isValidChar] at this
  change c.toNat < 0xD800 ∨ 0xDFFF < c.toNat ∧ c.toNat < 0x110000 at this
  omega

theorem units_append_inj {c d : Char} {us vs : List Nat} (h : units c ++ us = units d ++ vs) :
    c = d ∧ us = vs := by
  have hc := toNat_lt_or_le c
  have hd := toNat_lt_or_le d
  rw [← Char.toNat_inj]
  -- A character beyond the first plane begins with a code unit that is no character itself.
  by_cases hc' : c.toNat < 0x10000 <;> by_cases hd' : d.toNat < 0x10000 <;>
    simp only [units, hc', hd', if_true, if_false, List.cons_append, List.nil_append,
      List.cons_eq_cons] at h
  · exact h
  · have := h.1
    omega
  · have := h.1
    omega
  · obtain ⟨hhigh, hlow, hrest⟩ := h
    exact ⟨by omega, hrest⟩

theorem codeUnits_injective {s t : String} (h : codeUnits s = codeUnits t) : s = t := by
  have hne (c : Char) (cs : List Char) : (c :: cs).flatMap units ≠ [] := by
    simp only [List.flatMap_cons, units]
    split <;> simp
  rw [← String.toList_inj]
  unfold codeUnits at h
  generalize s.toList = cs at h
  generalize t.toList = ds at h
  induction cs generalizing ds with
  | nil =>
    cases ds with
    | nil => rfl
    | cons d ds => exact (hne d ds h.symm).elim
  | cons c cs ih =>
    cases ds with
    | nil => exact (hne c cs h).elim
    | cons d ds =>
      obtain ⟨rfl, hrest⟩ := units_append_inj h
      rw [ih ds hrest]

/-! ### Reading a literal -/

/-- The characters that end a line. -/
def isLineTerminator (c : Char) : Bool :=
  c == '\n' || c == '\x0d' || c == '\u2028' || c == '\u2029'

/-- What a character behind a backslash stands for, unless a number follows it or it ends a line. A
zero is an escape of its own only if no further digit follows. -/
def escaped? (c : Char) (rest : List Char) : Option (List Nat) :=
  match c with
  | 'b' => some [0x08]
  | 't' => some [0x09]
  | 'n' => some [0x0A]
  | 'v' => some [0x0B]
  | 'f' => some [0x0C]
  | 'r' => some [0x0D]
  | '0' => if rest.head?.any Char.isDigit then none else some [0]
  | 'x' | 'u' => none
  | c => if c.isDigit then none else some (units c)

/-- Code units in front of what is read of the rest of a literal. -/
def prependUnits (us : List Nat) (read : Option (List Nat × List Char)) :
    Option (List Nat × List Char) :=
  read.map fun (value, rest) => (us ++ value, rest)

/-- Read a literal from behind its opening quote, up to `delimiter`. A character that ends a line
may stand in it behind a backslash, and then stands for nothing, or if it is one of `raw`. -/
def literalTail (raw : Char → Bool) (delimiter : Char) :
    List Char → Option (List Nat × List Char)
  | [] => none
  | '\\' :: '\x0d' :: '\n' :: rest => literalTail raw delimiter rest
  | '\\' :: 'x' :: a :: b :: rest => do
    let high ← Json.hexDigit? a
    let low ← Json.hexDigit? b
    prependUnits [high * 16 + low] (literalTail raw delimiter rest)
  | '\\' :: 'u' :: a :: b :: c :: d :: rest => do
    prependUnits [← Json.hex4? a b c d] (literalTail raw delimiter rest)
  | '\\' :: c :: rest =>
    if isLineTerminator c then literalTail raw delimiter rest
    else do prependUnits (← escaped? c rest) (literalTail raw delimiter rest)
  | c :: rest =>
    if c = delimiter then some ([], rest)
    else if c = '\\' ∨ (isLineTerminator c ∧ ¬ raw c) then none
    else prependUnits (units c) (literalTail raw delimiter rest)

/-- The value of the string literal that a text begins with, in code units, and what follows it. -/
def readLiteral? (raw : Char → Bool) : List Char → Option (List Nat × List Char)
  | '"' :: rest => literalTail raw '"' rest
  | '\x27' :: rest => literalTail raw '\x27' rest
  | _ => none

/-! ### Printed literals -/

variable {raw : Char → Bool}

/-- The characters that can be read where they are printed. -/
def legible (raw : Char → Bool) (c : Char) : Bool :=
  !isLineTerminator c || c == '\n' || raw c

theorem literalTail_plain {c : Char} (hquote : c ≠ '"') (hescape : c ≠ '\\') (rest : List Char) :
    literalTail raw '"' (c :: rest) =
      if isLineTerminator c ∧ ¬ raw c then none
      else prependUnits (units c) (literalTail raw '"' rest) := by
  rw [literalTail.eq_def]
  split <;> simp_all

theorem escape_of_plain {c : Char} (hquote : c ≠ '"') (hbackslash : c ≠ '\\') (hline : c ≠ '\n') :
    escape c = [c] := by
  simp [escape, hquote, hbackslash, hline]

/-- What is printed of a character is read as that character. -/
theorem literalTail_escape (c : Char) (rest : List Char) :
    literalTail raw '"' (escape c ++ rest) =
      if legible raw c then prependUnits (units c) (literalTail raw '"' rest) else none := by
  by_cases hquote : c = '"'
  · subst hquote
    rfl
  by_cases hbackslash : c = '\\'
  · subst hbackslash
    rfl
  by_cases hline : c = '\n'
  · subst hline
    rfl
  · have hlegible : legible raw c = true ↔ ¬ (isLineTerminator c ∧ ¬ raw c) := by
      cases h : isLineTerminator c <;> simp [legible, hline, h]
    rw [escape_of_plain hquote hbackslash hline, List.singleton_append,
      literalTail_plain hquote hbackslash]
    simp only [hlegible, ite_not]

/-- A literal is the escaped value in quotes. -/
theorem toList_quote (value : String) :
    (quote value).toList = '"' :: (value.toList.flatMap escape ++ ['"']) := by
  simp [quote]

/-- **What is read of a printed literal.** It ends where the printed literal ends, and gives the
printed value; but it cannot be read if the value has a character that ends a line, other than a
line feed, and that may not stand in a literal as it is. -/
theorem readLiteral?_quote (value : String) (rest : List Char) :
    readLiteral? raw ((quote value).toList ++ rest) =
      if value.toList.all (legible raw) then some (codeUnits value, rest) else none := by
  rw [toList_quote, codeUnits]
  change literalTail raw '"' (value.toList.flatMap escape ++ ['"'] ++ rest) = _
  generalize value.toList = cs
  induction cs with
  | nil => simp [literalTail]
  | cons c cs ih =>
    rw [List.flatMap_cons, List.append_assoc, List.append_assoc, literalTail_escape,
      ← List.append_assoc, ih]
    rw [List.all_cons]
    cases legible raw c <;> cases cs.all (legible raw) <;> simp [prependUnits]

/-- The characters that end a line in a printed literal are those of the value, less the line
feeds. -/
theorem filter_isLineTerminator_quote (value : String) :
    (quote value).toList.filter isLineTerminator =
      value.toList.filter fun c => isLineTerminator c && c != '\n' := by
  have hescape (c : Char) : (escape c).filter isLineTerminator =
      [c].filter fun c => isLineTerminator c && c != '\n' := by
    by_cases hspecial : c = '"' ∨ c = '\\' ∨ c = '\n'
    · rcases hspecial with rfl | rfl | rfl <;> rfl
    · obtain ⟨hquote, hbackslash, hline⟩ := by simpa using hspecial
      simp [escape_of_plain hquote hbackslash hline, List.filter_cons, hline]
  have hbody (cs : List Char) : (cs.flatMap escape).filter isLineTerminator =
      cs.filter fun c => isLineTerminator c && c != '\n' := by
    induction cs with
    | nil => rfl
    | cons c cs ih =>
      rw [List.flatMap_cons, List.filter_append, hescape, ih, ← List.filter_append,
        List.singleton_append]
  have hquote : isLineTerminator '"' = false := rfl
  simp [toList_quote, hquote, hbody]

end Declass.Text

namespace Declass

/-! ### The text of a node -/

/-- The string that is printed in quotes as a part of a construct, with what is printed before
it. -/
def Shape.quoted? {α : Type} : Shape α → Option (String × String)
  | .literal (.string value) => some ("", value)
  | .property (.quoted value) _ => some ("", value)
  | .method (.quoted value) _ _ => some ("", value)
  | .getter (.quoted value) _ => some ("get ", value)
  | .setter (.quoted value) _ _ => some ("set ", value)
  | _ => none

theorem Shape.exists_text_eq {α : Type} {s : Shape α} {lead value : String}
    (h : s.quoted? = some (lead, value)) (emit : Nat → α → String) (depth : Nat) :
    ∃ trail, s.text emit depth = lead ++ Text.quote value ++ trail := by
  unfold quoted? at h
  unfold text
  split at h <;> simp only [Option.some.injEq, Prod.mk.injEq, reduceCtorEq] at h <;>
    obtain ⟨rfl, rfl⟩ := h <;>
    simp only [PropertyName.display, Literal.display, String.append_assoc, String.empty_append]
  · exact ⟨"", String.append_empty.symm⟩
  all_goals exact ⟨_, rfl⟩

open Text in
/-- **The literals in the text of a node.** The text of a string literal, or of a construct with a
quoted name, has the printed value at its place. What is read there ends with the printed literal
and gives the value; it cannot be read iff the value has a character that ends a line, other than a
line feed, and that the language does not accept in a literal. Such characters, and no others that
end a line, are printed as they are. -/
theorem Store.text_quotes {s : Store} {id : NodeId} {node : Node} {lead value : String}
    (found : s.get? id = some node) (hquoted : node.shape.quoted? = some (lead, value)) :
    ∃ trail, s.text id = lead ++ quote value ++ trail ∧
      (∀ (raw : Char → Bool) (rest : List Char),
        readLiteral? raw ((quote value).toList ++ rest) =
          if value.toList.all fun c => !isLineTerminator c || c == '\n' || raw c then
            some (codeUnits value, rest)
          else none) ∧
      (∀ other, codeUnits other = codeUnits value → other = value) ∧
      (quote value).toList.filter isLineTerminator =
        value.toList.filter fun c => isLineTerminator c && c != '\n' := by
  obtain ⟨trail, htext⟩ := Shape.exists_text_eq hquoted (s.textTo s.size) 0
  refine ⟨trail, ?_, fun raw rest => readLiteral?_quote value rest,
    fun other => codeUnits_injective, filter_isLineTerminator_quote value⟩
  rw [← htext, Store.text, Store.textTo, found]

/-- An accessor whose name has a quote, a backslash, a line feed and a character beyond the first
plane. -/
def accessorStore : Store where
  nodes := #[⟨.block [], none⟩, ⟨.getter (.quoted "a\"\\\n😀") ⟨0⟩, none⟩]

open Text in
/-- The name is read back from behind the word `get`, and what follows it is left. -/
theorem Store.text_quotes_mixed :
    accessorStore.get? ⟨1⟩ = some ⟨.getter (.quoted "a\"\\\n😀") ⟨0⟩, none⟩ ∧
    accessorStore.text ⟨1⟩ = "get \"a\\\"\\\\\\n😀\"() \x7b\x7d" ∧
    readLiteral? (fun _ => false) ((accessorStore.text ⟨1⟩).toList.drop 4) =
      some ([0x61, 0x22, 0x5C, 0x0A, 0xD83D, 0xDE00], "() \x7b\x7d".toList) := by
  have found : accessorStore.get? ⟨1⟩ = some ⟨.getter (.quoted "a\"\\\n😀") ⟨0⟩, none⟩ := rfl
  have htext : accessorStore.text ⟨1⟩ = "get \"a\\\"\\\\\\n😀\"() \x7b\x7d" := by decide +kernel
  obtain ⟨trail, hquoted, hread, -, -⟩ := Store.text_quotes found rfl
  have htrail : trail.toList = "() \x7b\x7d".toList := by
    have hdrop : ("get " ++ quote "a\"\\\n😀" ++ trail).toList.drop 14 = trail.toList := by
      rw [String.toList_append]
      exact List.drop_left' (by decide +kernel)
    rw [← hdrop, ← hquoted, htext]
    decide +kernel
  refine ⟨found, htext, ?_⟩
  rw [hquoted, String.toList_append, String.toList_append, List.append_assoc]
  change readLiteral? _ ((quote "a\"\\\n😀").toList ++ trail.toList) = _
  rw [hread, if_pos (by decide), htrail]
  decide +kernel

/-- A program that is a string literal of one character. -/
def singleStore (c : Char) : Store where
  nodes := #[⟨.literal (.string (String.singleton c)), none⟩]

open Text in
/-- **Literals that end in the middle of a line.** A carriage return and the two separators are
printed as they are, and no literal can be read there. -/
theorem Store.text_breaks_line :
    (['\x0d', '\u2028', '\u2029'].map fun c => (singleStore c).text ⟨0⟩) =
      ["\"\x0d\"", "\"\u2028\"", "\"\u2029\""] ∧
    (['\x0d', '\u2028', '\u2029'].map fun c =>
      readLiteral? (fun _ => false) ((singleStore c).text ⟨0⟩).toList) = [none, none, none] := by
  decide +kernel

end Declass
