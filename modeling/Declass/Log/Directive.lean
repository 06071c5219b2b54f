import Declass.Log.Basic
import Declass.Pattern.Match
import Declass.Pattern.Reader
import Declass.Text.Alphanumeric
import Declass.Text.Blank
import Declass.Text.Bytes
import Declass.Text.Decimal

/-!
# Directives of a filter

A directive says down to which level notes are shown, and which notes it is about. It is written as
a level alone, or as

```
target[name{field=value}]=level
```

where the parts may be left out. The target is the beginning of the targets concerned. The bracket
makes the directive one about spans: those with the name, which have the field, and in which the
field has the value. Without a level everything is shown.

A value is a truth value, a number, or else a pattern for texts. A text has the value if it ends in
a match of the pattern.

A level is a word in any case, or its number: `off` is 0, `error` is 1, and so on down to `trace`,
which is 5. A word that is no level is a target.

## Blanks

Blanks belong to the words that they stand in. Those around a directive do not count for its form,
but they do for its words: where these begin and end is found in the directive without the blanks,
and they are cut out of the directive with the blanks, at the same distances from its start. So
blanks in front shift all words, and a directive with a level behind a sign of equality cannot be
read then. A target behind blanks is read, but is the target of no note.

## Main definitions

* `Log.Expected`, `Log.FieldTest`, `Log.Directive`
* `Log.Directive.parse?`
-/

namespace Declass.Log

/-- A value that a field is asked for. -/
inductive Expected where
  | flag (value : Bool)
  | number (value : Nat)
  /-- A number that no field can have: negative, with a fraction, or too large. -/
  | otherNumber
  /-- A pattern, as it is written and as it is read. -/
  | matching (text : String) (pattern : Pattern)
  deriving DecidableEq, Repr

/-- Whether a field has the value that it is asked for. -/
def Expected.accepts : Expected → Value → Bool
  | .flag value, .flag actual => value == actual
  | .number value, .number actual => value == actual
  | .matching _ pattern, .text actual => pattern.endsIn actual
  | _, _ => false

/-- What a directive asks of a field: that it is there, and perhaps that it has a value. -/
structure FieldTest where
  name : String
  value : Option Expected
  deriving DecidableEq, Repr

/-- Down to which level notes are shown, and which notes are meant. -/
structure Directive where
  /-- The beginning of the targets concerned. -/
  target : String := ""
  /-- The name of the spans concerned. -/
  span : Option String := none
  field : Option FieldTest := none
  /-- The most detailed level shown; nothing is shown without one. -/
  level : Option Level
  deriving DecidableEq, Repr

namespace Directive

/-- What a directive is about. Of several about the same the last counts. -/
def subject (d : Directive) : String × Option String × Option FieldTest :=
  (d.target, d.span, d.field)

/-- Whether a directive is about notes with this target. -/
def matchesTarget (d : Directive) (target : String) : Bool :=
  d.target.toList.isPrefixOf target.toList

/-! ### Reading -/

/-- The level with a number; 0 is the level of which nothing is shown. -/
def levelOfNumber? : Nat → Option (Option Level)
  | 0 => some none
  | 1 => some (some .error)
  | 2 => some (some .warn)
  | 3 => some (some .info)
  | 4 => some (some .debug)
  | 5 => some (some .trace)
  | _ => none

/-- A level, as a word in any case or as a number. -/
def level? (word : List Char) : Option (Option Level) :=
  match String.ofList (word.map Char.toLower) with
  | "off" => some none
  | "error" => some (some .error)
  | "warn" => some (some .warn)
  | "info" => some (some .info)
  | "debug" => some (some .debug)
  | "trace" => some (some .trace)
  | _ => (Text.unsigned? word).bind levelOfNumber?

/-- The level that is written from a place on; nothing there stands for everything. -/
def levelFrom? (word : List Char) (place : Nat) : Option (Option Level) :=
  match Text.dropBytes place word with
  | [] => some (some .trace)
  | level => level? level

/-- The value that a field is asked for. Numbers have 64 bits. -/
def expected? (word : List Char) : Option Expected :=
  match String.ofList word, (Text.unsigned? word).filter (· < UInt64.size) with
  | "true", _ => some (.flag true)
  | "false", _ => some (.flag false)
  | _, some number => some (.number number)
  | text, none =>
    if Text.isReal word then some .otherNumber else (Pattern.parse? text).map (.matching text)

/-- What is asked of a field, `name` or `name=value`. A second sign of equality ends the value. -/
def fieldTest? (word : List Char) : Option FieldTest :=
  if word.isEmpty then
    none
  else
    let name := String.ofList (word.takeWhile (· != '='))
    match word.dropWhile (· != '=') with
    | _ :: value => (expected? (value.takeWhile (· != '='))).map fun value => ⟨name, some value⟩
    | [] => some ⟨name, none⟩

/-- The level of a directive whose bracket ends at a place, from what is found there: a sign of
equality or nothing. -/
def levelAfterBracket? (word : List Char) (place : Nat) : List Char → Option (Option Level)
  | [] => some (some .trace)
  | '=' :: _ => levelFrom? word (place + 1)
  | _ => none

/-- A directive about spans with notes of a target. `rest` is the form of the directive from behind
the opening bracket on, which is at the place `start`. -/
def scoped? (word : List Char) (target : String) (start : Nat) (rest : List Char) :
    Option Directive :=
  let isName (c : Char) : Bool := c != ']' && c != '\x7b'
  let nameEnd := start + Text.byteSize (rest.takeWhile isName)
  let name := String.ofList (Text.cut start nameEnd word)
  match rest.dropWhile isName with
  | ']' :: behind => do
    return { target, span := some name, level := ← levelAfterBracket? word (nameEnd + 1) behind }
  | '\x7b' :: inner =>
    let fieldEnd := nameEnd + 1 + Text.byteSize (inner.takeWhile (· != '\x7d'))
    match inner.dropWhile (· != '\x7d') with
    | '\x7d' :: ']' :: behind => do
      let field ← fieldTest? (Text.cut (nameEnd + 1) fieldEnd word)
      return {
        target
        span := if name.isEmpty then none else some name
        field := some field
        level := ← levelAfterBracket? word (fieldEnd + 2) behind }
    | _ => none
  | _ => none

/-- Whether a level or a target can begin with a character: a letter, a number, a hyphen, a colon or
an underscore. -/
def isStart (c : Char) : Bool :=
  Text.isAlphanumeric c || c == '-' || c == ':' || c == '_'

/-- A directive that begins with a level or a target. -/
def plain? (word form : List Char) : Option Directive :=
  let isTarget (c : Char) : Bool := c != '=' && c != '['
  let targetEnd := Text.byteSize (form.takeWhile isTarget)
  let target := String.ofList (Text.cut 0 targetEnd word)
  match form.dropWhile isTarget with
  | '=' :: _ => (levelFrom? word (targetEnd + 1)).map fun level => { target, level }
  | '[' :: rest => scoped? word target (targetEnd + 1) rest
  | _ =>
    match level? word with
    | some level => some { level }
    | none => some { target := String.ofList word, level := some .trace }

/-- Read a directive. Its form is that of the text without the blanks around it. -/
def parse? (text : String) : Option Directive :=
  let word := text.toList
  match Text.trim word with
  | '[' :: rest => scoped? word "" 1 rest
  | c :: cs => if isStart c then plain? word (c :: cs) else none
  | [] => none

end Directive

end Declass.Log
