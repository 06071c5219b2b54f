import Declass.Pattern.CharSet

/-!
# Patterns

A pattern is a regular expression with assertions about the place between two characters. Of a
choice the first part is preferred to the second, and a repetition prefers to go on or to stop.

## Main definitions

* `Look`, `Look.holds` — assertions
* `Pattern`
* `Pattern.minLength?`, `Pattern.readsNothing` — bounds on what a pattern reads
-/

namespace Declass

/-- An assertion about a place in a text. -/
inductive Look where
  | textStart
  | textEnd
  /-- At the start of a line; lines end with a line feed. -/
  | lineStart
  | lineEnd
  /-- At the start of a line; lines end with a line feed, a carriage return, or both in turn. -/
  | anyLineStart
  | anyLineEnd
  /-- Between a character of a word and another one. -/
  | wordEdge
  | notWordEdge
  | wordStart
  | wordEnd
  deriving DecidableEq, Repr

namespace Look

/-- Whether there is a character and it belongs to a word. -/
def isWord (c : Option Char) : Bool :=
  c.any CharSet.word.contains

/-- Whether an assertion holds between two characters; a missing one is beyond the text. -/
def holds (before after : Option Char) : Look → Bool
  | .textStart => before.isNone
  | .textEnd => after.isNone
  | .lineStart => before.all (· == '\n')
  | .lineEnd => after.all (· == '\n')
  | .anyLineStart => before.all fun c => c == '\n' || (c == '\x0d' && after != some '\n')
  | .anyLineEnd => after.all fun c => c == '\x0d' || (c == '\n' && before != some '\x0d')
  | .wordEdge => isWord before != isWord after
  | .notWordEdge => isWord before == isWord after
  | .wordStart => !isWord before && isWord after
  | .wordEnd => isWord before && !isWord after

end Look

/-- A regular expression. -/
inductive Pattern where
  | empty
  /-- A text of at least one character. -/
  | literal (first : Char) (rest : List Char)
  /-- A character of a set. A set that was written as one of ASCII characters is told apart from one
  of all characters, even if the two are equal. -/
  | chars (ascii : Bool) (set : CharSet)
  | look (assertion : Look)
  | seq (a b : Pattern)
  | alt (a b : Pattern)
  /-- A group with a number of its own. -/
  | group (number : Nat) (a : Pattern)
  /-- Once or not at all; `greedy` says that once is preferred. -/
  | optional (greedy : Bool) (a : Pattern)
  /-- Any number of times; `greedy` says that more is preferred. -/
  | star (greedy : Bool) (a : Pattern)
  /-- Once or more often; `greedy` says that more is preferred. -/
  | plus (greedy : Bool) (a : Pattern)
  deriving DecidableEq, Repr

namespace Pattern

/-- The number of parts of a pattern. -/
def size : Pattern → Nat
  | .empty | .chars .. | .look _ => 1
  | .literal _ rest => rest.length + 1
  | .seq a b | .alt a b => a.size + b.size + 1
  | .group _ a | .optional _ a | .star _ a | .plus _ a => a.size + 1

/-- A lower bound on the number of characters that a match reads. There is none if some part of the
pattern cannot match at all. -/
def minLength? : Pattern → Option Nat
  | .empty | .look _ => some 0
  | .literal _ rest => some (rest.length + 1)
  | .chars _ set => if set = .empty then none else some 1
  | .seq a b => do return (← a.minLength?) + (← b.minLength?)
  | .alt a b => do return min (← a.minLength?) (← b.minLength?)
  | .group _ a | .plus _ a => a.minLength?
  | .optional _ a | .star _ a => a.minLength?.map fun _ => 0

/-- Whether every match of a pattern is known to read a character. -/
def mustRead (pattern : Pattern) : Bool :=
  pattern.minLength?.any (0 < ·)

/-- Whether no match of a pattern reads a character. -/
def readsNothing : Pattern → Bool
  | .empty | .look _ => true
  | .literal .. | .chars .. | .star .. | .plus .. => false
  | .seq a b | .alt a b => a.readsNothing && b.readsNothing
  | .group _ a | .optional _ a => a.readsNothing

end Pattern

end Declass
