import Declass.Pattern.Basic

/-!
# Building patterns

Patterns are built in a normal form. Sequences and choices are flat, neighbouring texts are one
text, a choice between characters is a set, and what all parts of a choice begin with stands in
front of the choice.

The last rule bears on which match is preferred. In `a*?b|a*?c` the first part as a whole comes
before the second, whereas in `a*?(?:b|c)`, which is its normal form, a shorter beginning comes
before a longer one.

## Main definitions

* `Pattern.never`, `Pattern.ofSet`, `Pattern.concat`, `Pattern.choice`
* `Pattern.anyNumber`, `Pattern.atLeastOnce`
-/

namespace Declass.Pattern

/-- What never matches. -/
def never : Pattern :=
  .chars true .empty

/-- A character of a set. -/
def ofSet (ascii : Bool) (set : CharSet) : Pattern :=
  match set.single? with
  | some c => .literal c []
  | none => if set = .empty then never else .chars ascii set

/-! ### Sequences -/

/-- The parts of a sequence. -/
def factors : Pattern → List Pattern
  | .empty => []
  | .seq a b => a :: b.factors
  | a => [a]

/-- A sequence of parts. -/
def ofFactors : List Pattern → Pattern
  | [] => .empty
  | [a] => a
  | a :: as => .seq a (ofFactors as)

/-- Join neighbouring texts. -/
def joinLiterals : List Pattern → List Pattern
  | [] => []
  | .literal c cs :: as =>
    match joinLiterals as with
    | .literal d ds :: bs => .literal c (cs ++ d :: ds) :: bs
    | bs => .literal c cs :: bs
  | a :: as => a :: joinLiterals as

/-- Patterns one after the other. -/
def concat (patterns : List Pattern) : Pattern :=
  ofFactors (joinLiterals (patterns.flatMap factors))

/-! ### Choices -/

/-- The parts of a choice. -/
def branches : Pattern → List Pattern
  | .alt a b => a :: b.branches
  | a => [a]

/-- A choice between parts. -/
def ofBranches : List Pattern → Pattern
  | [] => never
  | [a] => a
  | a :: as => .alt a (ofBranches as)

/-- The character of a text of one. -/
def single? : Pattern → Option Char
  | .literal c [] => some c
  | _ => none

/-- The set of a pattern for one character of a set. -/
def set? : Pattern → Option CharSet
  | .chars _ set => some set
  | _ => none

/-- A choice between characters, or between sets of them, as one set. -/
def joined? (patterns : List Pattern) : Option CharSet :=
  let sets := (patterns.mapM single?).map (·.map CharSet.single) <|> patterns.mapM set?
  sets.map (·.foldl CharSet.union .empty)

/-- What two lists have in common at their start. -/
def commonStart : List Pattern → List Pattern → List Pattern
  | a :: as, b :: bs => if a = b then a :: commonStart as bs else []
  | _, _ => []

/-- What some sequences have in common at their start. Only patterns of several parts have something
in common. -/
def sharedStart (patterns : List Pattern) : List Pattern :=
  match patterns.map factors with
  | [] => []
  | first :: others =>
    if (first :: others).all (2 ≤ ·.length) then others.foldl commonStart first else []

/-- A choice between patterns, the preferred one first, in at most `depth` rounds of taking out what
the parts share. -/
def choiceTo : Nat → List Pattern → Pattern
  | 0, patterns => ofBranches patterns
  | depth + 1, patterns =>
    match patterns.flatMap branches with
    | [] => never
    | [a] => a
    | patterns =>
      match joined? patterns with
      | some set => ofSet false set
      | none =>
        match sharedStart patterns with
        | [] => ofBranches patterns
        | start =>
          let rests := patterns.map fun a => concat (a.factors.drop start.length)
          concat (start ++ [choiceTo depth rests])

/-- A choice between patterns, the preferred one first. Each round takes parts away. -/
def choice (patterns : List Pattern) : Pattern :=
  choiceTo (patterns.foldr (fun a total => a.size + total) 1) patterns

/-! ### Repetition -/

/-- Any number of times. Of a pattern that reads nothing, once is enough. -/
def anyNumber (greedy : Bool) (a : Pattern) : Pattern :=
  if a.readsNothing then .optional greedy a else .star greedy a

/-- Once or more often. Of a pattern that reads nothing, once is enough. -/
def atLeastOnce (greedy : Bool) (a : Pattern) : Pattern :=
  if a.readsNothing then a else .plus greedy a

end Declass.Pattern
