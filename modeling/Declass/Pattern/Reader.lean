import Declass.Pattern.Build
import Declass.Text.Alphanumeric
import Declass.Text.Blank

/-!
# Reading patterns

Patterns are written in the usual notation:

* `a|b`, `ab`, `a*`, `a+`, `a?`, and with another `?` behind it the repetition that prefers to stop;
* `(a)`, `(?:a)`, `(?<name>a)`, and `(?flags)` and `(?flags:a)` to set flags up to the end of a
  group;
* `.`, `[…]` with ranges, negation, named ASCII sets, classes inside classes, and the operations
  `&&`, `--` and `~~` on them;
* `^`, `$` and the escapes `\A`, `\z` for places, and escapes for single characters.

What would need a table of all characters is not there: the escapes `\d`, `\s` and `\w` for sets,
`\b` for the edges of words, and matching in either case are read only where the flag `u` is off and
they mean ASCII. There, in turn, no set may go beyond ASCII. Counted repetition is not read, and
there is a limit to how deep the parts of a pattern are nested.

## Main definitions

* `Pattern.Flags`, `Pattern.Nested`, `Pattern.Reader`
* `Pattern.parse?`
-/

namespace Declass.Pattern

/-- The flags in force at a place of a written pattern. -/
structure Flags where
  /-- `i`: letters match in either case. -/
  anyCase : Bool := false
  /-- `m`: `^` and `$` are about lines. -/
  lines : Bool := false
  /-- `s`: the dot matches also the end of a line. -/
  dotAll : Bool := false
  /-- `U`: repetitions prefer to stop, and to go on with another `?`. -/
  swapGreed : Bool := false
  /-- `u`: characters are not only those of ASCII. -/
  unicode : Bool := true
  /-- `x`: blanks and comments are passed over. -/
  spaced : Bool := false
  /-- `R`: lines may end with a carriage return. -/
  anyLineEnd : Bool := false
  deriving DecidableEq, Repr

/-- Switch a flag. -/
def Flags.switch? (flags : Flags) (on : Bool) : Char → Option Flags
  | 'i' => some { flags with anyCase := on }
  | 'm' => some { flags with lines := on }
  | 's' => some { flags with dotAll := on }
  | 'U' => some { flags with swapGreed := on }
  | 'u' => some { flags with unicode := on }
  | 'x' => some { flags with spaced := on }
  | 'R' => some { flags with anyLineEnd := on }
  | _ => none

/-- Switch flags as written: some on and, behind a hyphen, some off, each at most once. -/
def Flags.apply? (flags : Flags) (letters : List Char) : Option Flags :=
  if letters.eraseDups ≠ letters ∨ letters.getLast? = some '-' then
    none
  else do
    let on ← (letters.takeWhile (· != '-')).foldlM (·.switch? true) flags
    ((letters.dropWhile (· != '-')).drop 1).foldlM (·.switch? false) on

/-- Something with parts, and how deep these are nested. A thing without parts has depth zero. -/
structure Nested (α : Type) where
  value : α
  depth : Nat := 0

namespace Nested

variable {α β : Type}

/-- Put a thing into another one. -/
def wrap (f : α → β) (a : Nested α) : Nested β where
  value := f a.value
  depth := a.depth + 1

/-- Make one thing of two. -/
def combine (f : α → α → α) (a b : Nested α) : Nested α where
  value := f a.value b.value
  depth := max a.depth b.depth + 1

/-- Make one thing of several. Less than two are not nested by it. -/
def join (f : List α → α) (parts : List (Nested α)) : Nested α where
  value := f (parts.map (·.value))
  depth :=
    let depth := (parts.map (·.depth)).foldl max 0
    if 1 < parts.length then depth + 1 else depth

end Nested

/-- What is left to read, the flags in force, and the number and the names of groups so far. -/
structure Cursor where
  rest : List Char
  flags : Flags := {}
  groups : Nat := 0
  names : List String := []

/-- A reader takes what it reads from the front of the text, or fails. -/
abbrev Reader : Type → Type :=
  StateT Cursor Option

namespace Reader

/-- The flags in force. -/
def flags : Reader Flags :=
  return (← get).flags

/-- Put other flags in force. -/
def setFlags (flags : Flags) : Reader Unit :=
  modify fun cursor => { cursor with flags }

/-- The text that is left. -/
def rest : Reader (List Char) :=
  return (← get).rest

/-- Go on with `rest`. -/
def goTo (rest : List Char) : Reader Unit :=
  modify fun cursor => { cursor with rest }

/-- The text behind blanks and comments; a comment goes from `#` to the end of the line. -/
def dropBlanks : Nat → List Char → List Char
  | 0, cs => cs
  | lines + 1, cs =>
    match cs.dropWhile Text.isBlank with
    | '#' :: comment => dropBlanks lines (comment.dropWhile (· != '\n'))
    | cs => cs

/-- The text that is left, behind blanks where these are passed over. -/
def look : Reader (List Char) := do
  if (← flags).spaced then
    let cs ← rest
    goTo (dropBlanks (cs.length + 1) cs)
  rest

/-! ### Characters and sets -/

/-- The set of a character or range that is read in a class. Without `u` it must be ASCII, and only
without `u` it can be meant in either case. -/
def classRange (first last : Char) : Reader CharSet := do
  let flags ← flags
  if flags.unicode then
    if flags.anyCase then failure else return .range first last
  else if last.toNat < 0x80 then
    return if flags.anyCase then (CharSet.range first last).anyCase else .range first last
  else
    failure

/-- Complement a set, if it is allowed to go beyond ASCII. -/
def negate (set : CharSet) : Reader CharSet := do
  if (← flags).unicode then return set.compl else failure

/-- A set of ASCII characters that is read in a class. -/
def classNamed (set : CharSet) : Reader CharSet := do
  let flags ← flags
  if flags.anyCase then
    if flags.unicode then failure else return set.anyCase
  else
    return set

/-- A pattern for one character. -/
def character (c : Char) : Reader Pattern := do
  let flags ← flags
  if flags.anyCase then
    if flags.unicode then failure else return ofSet true (CharSet.single c).anyCase
  else
    return .literal c []

/-- The dot. -/
def dot : Reader Pattern := do
  let flags ← flags
  if !flags.unicode then
    failure
  else if flags.dotAll then
    return .chars false .all
  else if flags.anyLineEnd then
    return .chars false ((CharSet.single '\n').union (.single '\x0d')).compl
  else
    return .chars false (CharSet.single '\n').compl

/-- The start of the text or of a line. -/
def caret : Reader Pattern := do
  let flags ← flags
  return .look (if !flags.lines then .textStart
    else if flags.anyLineEnd then .anyLineStart else .lineStart)

/-- The end of the text or of a line. -/
def dollar : Reader Pattern := do
  let flags ← flags
  return .look (if !flags.lines then .textEnd
    else if flags.anyLineEnd then .anyLineEnd else .lineEnd)

/-! ### Escapes -/

/-- What an escape stands for. -/
inductive Escape where
  | character (c : Char)
  | set (set : CharSet)
  | look (assertion : Look)

/-- The value of a hexadecimal digit. -/
def hexDigit? (c : Char) : Option Nat :=
  if c.isDigit then some (c.toNat - '0'.toNat)
  else if 'a' ≤ c ∧ c ≤ 'f' then some (c.toNat - 'a'.toNat + 10)
  else if 'A' ≤ c ∧ c ≤ 'F' then some (c.toNat - 'A'.toNat + 10)
  else none

/-- The value of a number of hexadecimal digits, with `value` read before them. -/
def hex : Nat → Nat → Reader Nat
  | 0, value => return value
  | digits + 1, value => do
    match ← look with
    | c :: cs =>
      let digit ← hexDigit? c
      goTo cs
      hex digits (16 * value + digit)
    | [] => failure

/-- The character with a code. -/
def ofCode (code : Nat) : Reader Escape :=
  if code.isValidChar then return .character (Char.ofNat code) else failure

/-- A set that an escape stands for only without `u`. -/
def asciiSet (set : CharSet) : Reader Escape := do
  if (← flags).unicode then failure else return .set set

/-- An assertion that an escape stands for only without `u`. -/
def asciiLook (assertion : Look) : Reader Escape := do
  if (← flags).unicode then failure else return .look assertion

/-- An escape, from behind the backslash. -/
def escape : Reader Escape := do
  match ← rest with
  | [] => failure
  | c :: cs =>
    goTo cs
    match c with
    | 'x' =>
      let code ← hex 2 0
      if (← flags).unicode || code < 0x80 then ofCode code else failure
    | 'u' => ofCode (← hex 4 0)
    | 'U' => ofCode (← hex 8 0)
    | 'd' => asciiSet .digit
    | 's' => asciiSet .space
    | 'w' => asciiSet .word
    | 'a' => return .character '\x07'
    | 'f' => return .character '\x0c'
    | 't' => return .character '\t'
    | 'n' => return .character '\n'
    | 'r' => return .character '\x0d'
    | 'v' => return .character '\x0b'
    | 'A' => return .look .textStart
    | 'z' => return .look .textEnd
    | 'b' => asciiLook .wordEdge
    | 'B' => asciiLook .notWordEdge
    | '<' => asciiLook .wordStart
    | '>' => asciiLook .wordEnd
    | c => if c.isAlphanum || 0x80 ≤ c.toNat then failure else return .character c

/-! ### Classes -/

/-- A named set, `[:name:]` or `[:^name:]`, from behind its bracket; nothing is taken if there is
none. -/
def namedSet? : Reader (Option CharSet) := do
  match ← rest with
  | ':' :: cs =>
    let negated := cs.head? == some '^'
    let cs := if negated then cs.drop 1 else cs
    let name := String.ofList (cs.takeWhile (· != ':'))
    match cs.dropWhile (· != ':'), CharSet.ofAsciiName? name with
    | ':' :: ']' :: behind, some set =>
      goTo behind
      let set ← classNamed set
      return some (← if negated then negate set else pure set)
    | _, _ => return none
  | _ => return none

/-- One character or one escape in a class. -/
def classItem : Reader Escape := do
  match ← rest with
  | '\\' :: cs =>
    goTo cs
    escape
  | c :: cs =>
    goTo cs
    return .character c
  | [] => failure

/-- A character, a range or an escape in a class. A hyphen in front of another one or of the end is
no range. -/
def classPart : Reader CharSet := do
  match ← classItem, ← look with
  | _, [] => failure
  | .character first, '-' :: cs =>
    goTo cs
    match ← look with
    | ']' :: _ | '-' :: _ =>
      goTo ('-' :: cs)
      classRange first first
    | _ =>
      match ← classItem with
      | .character last => if first ≤ last then classRange first last else failure
      | _ => failure
  | .character c, _ => classRange c c
  | .set set, '-' :: cs =>
    goTo cs
    match ← look with
    | ']' :: _ | '-' :: _ =>
      goTo ('-' :: cs)
      return set
    | _ => failure
  | .set set, _ => return set
  | .look _, _ => failure

/-- The hyphens at the start of a class. -/
def leadingHyphens : Nat → Reader (List CharSet)
  | 0 => return []
  | length + 1 => do
    match ← look with
    | '-' :: cs =>
      goTo cs
      let hyphen ← classRange '-' '-'
      return hyphen :: (← leadingHyphens length)
    | _ => return []

/-- What stands first in a class: hyphens, or a closing bracket, which does not close it. -/
def classStart : Reader (List CharSet) := do
  match ← leadingHyphens (← rest).length, ← look with
  | [], ']' :: cs =>
    goTo cs
    return [← classRange ']' ']']
  | hyphens, _ => return hyphens

/-- The characters in one of some sets. -/
def unionOf (parts : List (Nested CharSet)) : Nested CharSet :=
  Nested.join (·.foldl CharSet.union .empty) parts

mutual

/-- A class, from behind its bracket. -/
def bracketTo : Nat → Reader (Nested CharSet)
  | 0 => failure
  | length + 1 => do
    match ← look with
    | '^' :: cs =>
      goTo cs
      let start ← classStart
      let set ← classTo length id (start.map ({ value := · }))
      return { value := ← negate set.value, depth := set.depth + 1 }
    | _ =>
      let start ← classStart
      let set ← classTo length id (start.map ({ value := · }))
      return set.wrap id

/-- The rest of a class up to its closing bracket. `parts` have been read since the last operation,
and `operation` has that one's left side. -/
def classTo : Nat → (Nested CharSet → Nested CharSet) → List (Nested CharSet) →
    Reader (Nested CharSet)
  | 0, _, _ => failure
  | length + 1, operation, parts => do
    match ← look with
    | [] => failure
    | ']' :: cs =>
      goTo cs
      return operation (unionOf parts)
    | '[' :: cs =>
      goTo cs
      match ← namedSet? with
      | some named => classTo length operation (parts ++ [{ value := named }])
      | none => classTo length operation (parts ++ [← bracketTo length])
    | '&' :: '&' :: cs =>
      goTo cs
      classTo length (Nested.combine CharSet.inter (operation (unionOf parts))) []
    | '-' :: '-' :: cs =>
      goTo cs
      classTo length (Nested.combine CharSet.diff (operation (unionOf parts))) []
    | '~' :: '~' :: cs =>
      goTo cs
      classTo length (Nested.combine CharSet.symmDiff (operation (unionOf parts))) []
    | _ => classTo length operation (parts ++ [{ value := ← classPart }])

end

/-! ### Groups and repetition -/

/-- Whether a character may stand in the name of a group. -/
def isNameChar (isFirst : Bool) (c : Char) : Bool :=
  c == '_' || Text.isAlphabetic c
    || (!isFirst && (Text.isNumeric c || c == '.' || c == '[' || c == ']'))

/-- The name of a group and the sign behind it. No two groups have one name. -/
def groupName : Reader Unit := do
  let cs ← rest
  let name := cs.takeWhile (· != '>')
  match cs.dropWhile (· != '>'), name with
  | _ :: behind, c :: tail =>
    if isNameChar true c && tail.all (isNameChar false)
        && !(← get).names.contains (String.ofList name) then
      modify fun cursor => { cursor with
        rest := behind
        names := String.ofList name :: cursor.names }
    else
      failure
  | _, _ => failure

/-- The body of a group and its closing parenthesis. Flags set inside end with it. -/
def enclosed (body : Reader (Nested Pattern)) (outer : Flags) : Reader (Nested Pattern) := do
  let pattern ← body
  match ← look with
  | ')' :: cs =>
    goTo cs
    setFlags outer
    return pattern.wrap id
  | _ => failure

/-- The body of a group that has a number. Groups are numbered as they open. -/
def numbered (body : Reader (Nested Pattern)) (outer : Flags) : Reader (Nested Pattern) := do
  let number := (← get).groups
  modify fun cursor => { cursor with groups := number + 1 }
  let pattern ← enclosed body outer
  return { pattern with value := .group number pattern.value }

/-- A group, from behind its parenthesis. One that only sets flags is no pattern. -/
def group (body : Reader (Nested Pattern)) : Reader (Option (Nested Pattern)) := do
  let outer ← flags
  match ← look with
  | '?' :: '<' :: '!' :: _ | '?' :: '<' :: '=' :: _ => failure
  | '?' :: 'P' :: '<' :: cs | '?' :: '<' :: cs =>
    goTo cs
    groupName
    return some (← numbered body outer)
  | '?' :: cs =>
    let isFlag (c : Char) : Bool := c != ':' && c != ')'
    let letters := cs.takeWhile isFlag
    let inner ← outer.apply? letters
    match cs.dropWhile isFlag with
    | ':' :: behind =>
      goTo behind
      setFlags inner
      return some (← enclosed body outer)
    | _ :: behind =>
      if letters.isEmpty then
        failure
      goTo behind
      setFlags inner
      return none
    | [] => failure
  | _ => return some (← numbered body outer)

/-- The smallest part of a pattern: a character, a class, a group, a place, or a setting of flags,
which is no pattern. -/
def atom (body : Reader (Nested Pattern)) : Reader (Option (Nested Pattern)) := do
  match ← rest with
  | [] => failure
  | c :: cs =>
    goTo cs
    match c with
    | '(' => group body
    | '[' =>
      let set ← bracketTo (2 * cs.length + 2)
      return some { set with value := ofSet (!(← flags).unicode) set.value }
    | '\\' =>
      match ← escape with
      | .character c => return some { value := ← character c }
      | .set set => return some { value := ofSet true set }
      | .look assertion => return some { value := .look assertion }
    | '.' => return some { value := ← dot }
    | '^' => return some { value := ← caret }
    | '$' => return some { value := ← dollar }
    | '*' | '+' | '?' | '\x7b' | ')' | '|' => failure
    | c => return some { value := ← character c }

/-- Whether a repetition is greedy, which the next character decides. -/
def greed : Reader Bool := do
  let swap := (← flags).swapGreed
  match ← rest with
  | '?' :: cs =>
    goTo cs
    return swap
  | _ => return !swap

/-- The signs of repetition behind a pattern. -/
def repeated : Nat → Nested Pattern → Reader (Nested Pattern)
  | 0, pattern => return pattern
  | length + 1, pattern => do
    match ← look with
    | '*' :: cs =>
      goTo cs
      repeated length (pattern.wrap (anyNumber (← greed)))
    | '+' :: cs =>
      goTo cs
      repeated length (pattern.wrap (atLeastOnce (← greed)))
    | '?' :: cs =>
      goTo cs
      repeated length (pattern.wrap (.optional (← greed)))
    | _ => return pattern

mutual

/-- Patterns with `|` between them. -/
def alternativesTo : Nat → Reader (List (Nested Pattern))
  | 0 => failure
  | length + 1 => do
    let first := Nested.join concat (← sequenceTo length)
    match ← look with
    | '|' :: cs =>
      goTo cs
      return first :: (← alternativesTo length)
    | _ => return [first]

/-- Patterns one after the other. A setting of flags counts as one that is empty. -/
def sequenceTo : Nat → Reader (List (Nested Pattern))
  | 0 => failure
  | length + 1 => do
    match ← look with
    | [] | ')' :: _ | '|' :: _ => return []
    | cs =>
      match ← atom (do return Nested.join choice (← alternativesTo length)) with
      | none => return { value := .empty } :: (← sequenceTo length)
      | some pattern =>
        let pattern ← repeated cs.length pattern
        return pattern :: (← sequenceTo length)

end

end Reader

/-- How deep the parts of a pattern may be nested. -/
def maxDepth : Nat := 250

/-- Read a pattern. Every step of the readers takes a character, or goes from alternatives to one
of them. -/
def parse? (text : String) : Option Pattern :=
  let cs := text.toList
  match (Reader.alternativesTo (2 * cs.length + 2)).run { rest := cs } with
  | some (patterns, cursor) =>
    let pattern := Nested.join choice patterns
    if cursor.rest.isEmpty && pattern.depth ≤ maxDepth then some pattern.value else none
  | none => none

end Declass.Pattern
