import Declass.Pattern.Basic

/-!
# Matching

A pattern is looked for from the left. All the ways to match are followed side by side, ordered by
preference: a match that begins earlier is preferred to one that begins later, and of those that
begin at one place the choices of the pattern decide. As soon as one way has matched, the ways that
are less preferred are given up; the preferred ones go on.

A text ends in a match if one of the ways that are left at its end has matched there. So a match in
the middle of the text shuts out a later one.

## Places

At each place the threads go on without reading as far as they can, and a thread that has been seen
at this place is not followed again. A repetition that reads nothing ends by this, and it is this
rule that fixes the order of preference inside such repetitions.

## Main definitions

* `Pattern.Thread` — one way to match, as what is still to be matched
* `Pattern.settle`, `Pattern.settleAt` — the threads that wait at a place
* `Pattern.endsIn`
-/

namespace Declass.Pattern

/-- A part of what a thread still has to match. -/
inductive Item where
  | once (a : Pattern)
  /-- A pattern that has matched before and may match again. -/
  | again (greedy : Bool) (a : Pattern)
  deriving DecidableEq, Repr

/-- What is still to be matched, in order. A thread with nothing left has matched. -/
abbrev Thread : Type :=
  List Item

/-- Two ways to go on, the preferred one first. -/
def inOrder (greedy : Bool) (more less : Thread) : List Thread :=
  if greedy then [more, less] else [less, more]

/-- How a thread goes on at the place where it is, in order of preference. `holds` says which
assertions hold there. Nothing is returned for a thread that waits: one that has matched, or has to
read.

The repetition of a pattern that must read comes back to itself. With other patterns the first time
is set apart from the later ones, so that a first time that reads nothing counts as one. -/
def moves? (holds : Look → Bool) : Thread → Option (List Thread)
  | [] | .once (.literal ..) :: _ | .once (.chars ..) :: _ => none
  | .once .empty :: rest => some [rest]
  | .once (.look assertion) :: rest => some (if holds assertion then [rest] else [])
  | .once (.seq a b) :: rest => some [.once a :: .once b :: rest]
  | .once (.alt a b) :: rest => some [.once a :: rest, .once b :: rest]
  | .once (.group _ a) :: rest => some [.once a :: rest]
  | .once (.optional greedy a) :: rest => some (inOrder greedy (.once a :: rest) rest)
  | .once (.star greedy a) :: rest =>
    let later : Item := if a.mustRead then .once (.star greedy a) else .again greedy a
    some (inOrder greedy (.once a :: later :: rest) rest)
  | .once (.plus greedy a) :: rest => some [.once a :: .again greedy a :: rest]
  | .again greedy a :: rest =>
    some (inOrder greedy (.once a :: .again greedy a :: rest) rest)

/-- Follow threads at one place, in order of preference, until they wait. -/
def settle (holds : Look → Bool) : Nat → List Thread → List Thread → List Thread
  | 0, _, _ | _, [], _ => []
  | steps + 1, thread :: threads, seen =>
    if thread ∈ seen then
      settle holds steps threads seen
    else
      match moves? holds thread with
      | some moves => settle holds steps (moves ++ threads) (thread :: seen)
      | none => thread :: settle holds steps threads (thread :: seen)

/-- The threads that wait at the place between two characters.

At one place there are at most two threads for each part of the pattern, and one that has matched;
each is followed once and has at most two moves, which bounds the steps. -/
def settleAt (pattern : Pattern) (before after : Option Char) (threads : List Thread) :
    List Thread :=
  settle (Look.holds before after) (threads.length + 4 * pattern.size + 4) threads []

/-- Let a thread read a character. -/
def read? (c : Char) : Thread → Option Thread
  | .once (.chars _ set) :: rest => if set.contains c then some rest else none
  | .once (.literal first []) :: rest => if first = c then some rest else none
  | .once (.literal first (second :: more)) :: rest =>
    if first = c then some (.once (.literal second more) :: rest) else none
  | _ => none

/-- Whether a match can begin and end inside the encoding of a character, between two of its bytes.
Such a match reads nothing, and ASCII characters have no inside. -/
def matchesInside (pattern : Pattern) (c : Char) : Bool :=
  1 < c.utf8Size && (settleAt pattern (some c) (some c) [[.once pattern]]).any List.isEmpty

/-- Whether one of the ways to match is left and has matched at the end of the text. `threads` have
come as far as the text that remains, and a match may begin here if `fresh` is set. -/
def endsInFrom (pattern : Pattern) : Option Char → List Thread → Bool → List Char → Bool
  | before, threads, fresh, text =>
    let threads := if fresh then threads ++ [[.once pattern]] else threads
    let waiting := settleAt pattern before text.head? threads
    match text with
    | [] => waiting.any List.isEmpty
    | c :: text =>
      let preferred := waiting.takeWhile (!·.isEmpty)
      endsInFrom pattern (some c) (preferred.filterMap (read? c))
        (fresh && preferred.length == waiting.length && !pattern.matchesInside c) text

/-- Whether the preferred match of a pattern in a text ends where the text ends. -/
def endsIn (pattern : Pattern) (text : String) : Bool :=
  endsInFrom pattern none [] true text.toList

end Declass.Pattern
