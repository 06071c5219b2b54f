/-!
# Reading JSON

Texts are read from the left, strictly, straight into the values asked for: no document is built
first, and the first fault in the text is the one that counts, whatever follows it. What is not
asked for is skipped, but must be well formed.

A record is an object or an array. In an object its fields stand in any order, each at most once,
beside other members, which are skipped; in an array they stand in their own order, and the last
ones may be missing.

A string that is skipped may hold escapes of half a surrogate pair; in one that is read every escape
must stand for a character.

## Main definitions

* `Json.Fault`, `Json.Reader`
* `Json.string`, `Json.bool`, `Json.optional`, `Json.list` — readers of values
* `Json.skipValue` — pass over any value
* `Json.Field`, `Json.record` — readers of records
* `Json.read` — read a whole text
-/

namespace Declass.Json

/-- Why a text is refused. -/
inductive Fault where
  /-- It is not JSON, or not JSON of the right form. -/
  | malformed
  /-- A string stands for a truth value and names none. -/
  | badBoolean (text : String)
  deriving DecidableEq, Repr

/-- A reader takes what it reads from the front of the text. -/
abbrev Reader : Type → Type :=
  StateT (List Char) (Except Fault)

/-! ### Characters -/

/-- Blanks between tokens. -/
def isBlank (c : Char) : Bool :=
  c == ' ' || c == '\n' || c == '\t' || c == '\r'

/-- The next character after blanks. -/
def peek? : Reader (Option Char) := do
  modify (·.dropWhile isBlank)
  return (← get).head?

/-- Pass over one character. -/
def advance : Reader Unit :=
  modify List.tail

/-- Pass over blanks and the character `c`. -/
def token (c : Char) : Reader Unit := do
  if (← peek?) = some c then
    advance
  else
    throw .malformed

/-- Pass over blanks and a word. -/
def word (w : String) : Reader Unit := do
  let _ ← peek?
  let cs ← get
  if w.toList.isPrefixOf cs then
    set (cs.drop w.length)
  else
    throw .malformed

/-! ### Strings -/

/-- The value of a hexadecimal digit. -/
def hexDigit? (c : Char) : Option Nat :=
  if '0' ≤ c ∧ c ≤ '9' then some (c.toNat - '0'.toNat)
  else if 'a' ≤ c ∧ c ≤ 'f' then some (c.toNat - 'a'.toNat + 10)
  else if 'A' ≤ c ∧ c ≤ 'F' then some (c.toNat - 'A'.toNat + 10)
  else none

/-- The value of four hexadecimal digits. -/
def hex4? (a b c d : Char) : Option Nat := do
  return ((← hexDigit? a) * 16 + (← hexDigit? b)) * 256 + (← hexDigit? c) * 16 + (← hexDigit? d)

/-- The character of an escape of one letter. -/
def escape? : Char → Option Char
  | '"' => some '"'
  | '\\' => some '\\'
  | '/' => some '/'
  | 'b' => some '\x08'
  | 'f' => some '\x0c'
  | 'n' => some '\n'
  | 'r' => some '\x0d'
  | 't' => some '\t'
  | _ => none

/-- Control characters must be escaped. -/
def isControl (c : Char) : Bool :=
  c.toNat < 0x20

/-- Read a string from behind its opening quote; `read` is what has been read, last character first.
Returns the string and the text after its closing quote. -/
def stringTail (read : List Char) : List Char → Except Fault (String × List Char)
  | [] => .error .malformed
  | '"' :: rest => .ok (String.ofList read.reverse, rest)
  | '\\' :: 'u' :: a :: b :: c :: d :: rest =>
    match hex4? a b c d with
    | none => .error .malformed
    | some unit =>
      if unit < 0xD800 ∨ 0xE000 ≤ unit then
        stringTail (Char.ofNat unit :: read) rest
      else if unit < 0xDC00 then
        match rest with
        | '\\' :: 'u' :: e :: f :: g :: h :: rest =>
          match hex4? e f g h with
          | none => .error .malformed
          | some low =>
            if 0xDC00 ≤ low ∧ low < 0xE000 then
              stringTail
                (Char.ofNat (0x10000 + (unit - 0xD800) * 0x400 + (low - 0xDC00)) :: read) rest
            else
              .error .malformed
        | _ => .error .malformed
      else
        .error .malformed
  | '\\' :: c :: rest =>
    match escape? c with
    | some c => stringTail (c :: read) rest
    | none => .error .malformed
  | c :: rest =>
    if c = '\\' ∨ isControl c then .error .malformed else stringTail (c :: read) rest

/-- A string. -/
def string : Reader String := do
  token '"'
  let (value, rest) ← stringTail [] (← get)
  set rest
  return value

/-- The text after the closing quote of a string that is skipped. -/
def skipStringTail : List Char → Except Fault (List Char)
  | [] => .error .malformed
  | '"' :: rest => .ok rest
  | '\\' :: 'u' :: a :: b :: c :: d :: rest =>
    if (hex4? a b c d).isSome then skipStringTail rest else .error .malformed
  | '\\' :: c :: rest =>
    if (escape? c).isSome then skipStringTail rest else .error .malformed
  | c :: rest =>
    if c = '\\' ∨ isControl c then .error .malformed else skipStringTail rest

/-- Skip a string. -/
def skipString : Reader Unit := do
  token '"'
  set (← skipStringTail (← get))

/-! ### Numbers -/

/-- Skip digits, of which there must be one. -/
def skipDigits : Reader Unit := do
  match ← get with
  | c :: rest => if c.isDigit then set (rest.dropWhile Char.isDigit) else throw .malformed
  | [] => throw .malformed

/-- Skip the exponent of a number, if there is one. -/
def skipExponent : Reader Unit := do
  match ← get with
  | 'e' :: '+' :: rest | 'e' :: '-' :: rest | 'E' :: '+' :: rest | 'E' :: '-' :: rest
  | 'e' :: rest | 'E' :: rest =>
    set rest
    skipDigits
  | _ => pure ()

/-- Skip the fraction of a number, if there is one. -/
def skipFraction : Reader Unit := do
  match ← get with
  | '.' :: rest =>
    set rest
    skipDigits
  | _ => pure ()

/-- Skip a number. A zero in front is the whole integer part. -/
def skipNumber : Reader Unit := do
  match ← get with
  | '-' :: rest => set rest
  | _ => pure ()
  match ← get with
  | '0' :: rest =>
    if rest.head?.any Char.isDigit then
      throw .malformed
    set rest
  | _ => skipDigits
  skipFraction
  skipExponent

/-! ### Values that are skipped

Every value and every step from one element to the next takes a character at least, so the length of
the text bounds the depth of the recursion. -/

mutual

/-- Skip a value, down to `depth` steps. -/
def skipValueTo : Nat → Reader Unit
  | 0 => throw .malformed
  | depth + 1 => do
    match ← peek? with
    | some 'n' => word "null"
    | some 't' => word "true"
    | some 'f' => word "false"
    | some '"' => skipString
    | some '[' =>
      advance
      if (← peek?) = some ']' then advance else skipElementsTo depth
    | some '\x7b' =>
      advance
      if (← peek?) = some '\x7d' then advance else skipMembersTo depth
    | _ => skipNumber

/-- Skip the elements of an array and its end. -/
def skipElementsTo : Nat → Reader Unit
  | 0 => throw .malformed
  | depth + 1 => do
    skipValueTo depth
    match ← peek? with
    | some ',' =>
      advance
      skipElementsTo depth
    | some ']' => advance
    | _ => throw .malformed

/-- Skip the members of an object and its end. -/
def skipMembersTo : Nat → Reader Unit
  | 0 => throw .malformed
  | depth + 1 => do
    skipString
    token ':'
    skipValueTo depth
    match ← peek? with
    | some ',' =>
      advance
      skipMembersTo depth
    | some '\x7d' => advance
    | _ => throw .malformed

end

/-- Skip any value. -/
def skipValue : Reader Unit := do
  skipValueTo ((← get).length + 1)

/-! ### Values that are read -/

/-- `true` or `false`. -/
def bool : Reader Bool := do
  if (← peek?) = some 't' then
    word "true"
    return true
  else
    word "false"
    return false

/-- A value, or `null` in its place. -/
def optional {α : Type} (value : Reader α) : Reader (Option α) := do
  if (← peek?) = some 'n' then
    word "null"
    return none
  else
    return some (← value)

/-- The elements of an array from the first one on, and its end. -/
def elementsTo {α : Type} (value : Reader α) : Nat → Reader (List α)
  | 0 => throw .malformed
  | length + 1 => do
    let first ← value
    match ← peek? with
    | some ',' =>
      advance
      return first :: (← elementsTo value length)
    | some ']' =>
      advance
      return [first]
    | _ => throw .malformed

/-- An array of values. -/
def list {α : Type} (value : Reader α) : Reader (List α) := do
  token '['
  if (← peek?) = some ']' then
    advance
    return []
  else
    elementsTo value ((← get).length + 1)

/-! ### Records -/

/-- A field of a record `ρ`: its name, and how its value is read into the record. -/
structure Field (ρ : Type) where
  name : String
  read : ρ → Reader ρ

/-- The members of a record that is written as an object, from the first one on, and its end. The
names in `seen` have been read already. -/
def membersTo {ρ : Type} (fields : List (Field ρ)) : Nat → List String → ρ → Reader ρ
  | 0, _, _ => throw .malformed
  | length + 1, seen, record => do
    let name ← string
    let field := fields.find? (·.name == name)
    if field.isSome ∧ name ∈ seen then
      throw .malformed
    token ':'
    let record ← match field with
      | some field => field.read record
      | none => do
        skipValue
        pure record
    match ← peek? with
    | some ',' =>
      advance
      membersTo fields length (name :: seen) record
    | some '\x7d' =>
      advance
      return record
    | _ => throw .malformed

/-- The elements of a record that is written as an array, and its end. -/
def tuple {ρ : Type} (isFirst : Bool) : List (Field ρ) → ρ → Reader ρ
  | [], record => do
    token ']'
    return record
  | field :: fields, record => do
    if (← peek?) = some ']' then
      advance
      return record
    unless isFirst do
      token ','
    tuple false fields (← field.read record)

/-- A record, as an object or as an array. What is missing stays as it is in `start`. -/
def record {ρ : Type} (fields : List (Field ρ)) (start : ρ) : Reader ρ := do
  match ← peek? with
  | some '\x7b' =>
    advance
    if (← peek?) = some '\x7d' then
      advance
      return start
    else
      membersTo fields ((← get).length + 1) [] start
  | some '[' =>
    advance
    tuple true fields start
  | _ => throw .malformed

/-- Read a whole text. Nothing but blanks may follow the value. -/
def read {α : Type} (value : Reader α) (text : String) : Except Fault α := do
  let (value, rest) ← value.run text.toList
  if rest.all isBlank then
    return value
  else
    throw .malformed

end Declass.Json
