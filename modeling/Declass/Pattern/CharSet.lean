/-!
# Sets of characters

A set of characters is kept as its ranges: in ascending order, with a gap between any two. So two
sets with the same characters are equal.

Ranges are taken over the places of characters. The characters are numbered without a gap, so the
last character before the surrogates and the first one behind them are neighbours.

## Main definitions

* `CharSet`, `CharSet.contains`
* `CharSet.union`, `CharSet.compl`, `CharSet.inter`, `CharSet.diff`, `CharSet.symmDiff`
* `CharSet.anyCase` — a set closed under change of case
* `CharSet.ofAsciiName?` — the sets of ASCII characters that have a name
-/

namespace Declass

/-- A set of characters, as ranges of places. -/
structure CharSet where
  ranges : List (Nat × Nat)
  deriving DecidableEq, Repr

namespace CharSet

/-- The place of a character among all characters. -/
def place (c : Char) : Nat :=
  if c.toNat < 0xD800 then c.toNat else c.toNat - 0x800

/-- The character at a place. -/
def atPlace (place : Nat) : Char :=
  Char.ofNat (if place < 0xD800 then place else place + 0x800)

/-- The number of characters. -/
def placeCount : Nat := 0x10F800

/-- Whether a character is in a set. -/
def contains (set : CharSet) (c : Char) : Bool :=
  set.ranges.any fun (first, last) => first ≤ place c && place c ≤ last

/-- Add a range to ascending ranges, joining it with those that it touches. -/
def addRange (first last : Nat) : List (Nat × Nat) → List (Nat × Nat)
  | [] => [(first, last)]
  | (a, b) :: rest =>
    if last + 1 < a then (first, last) :: (a, b) :: rest
    else if b + 1 < first then (a, b) :: addRange first last rest
    else addRange (min first a) (max last b) rest

/-- The ranges from `next` on that ascending ranges leave out. -/
def gaps (next : Nat) : List (Nat × Nat) → List (Nat × Nat)
  | [] => if next < placeCount then [(next, placeCount - 1)] else []
  | (a, b) :: rest =>
    if next < a then (next, a - 1) :: gaps (b + 1) rest else gaps (b + 1) rest

/-- The set without characters. -/
def empty : CharSet :=
  ⟨[]⟩

/-- The set of all characters. -/
def all : CharSet :=
  ⟨gaps 0 []⟩

/-- The characters from one to another. -/
def range (first last : Char) : CharSet :=
  ⟨[(place first, place last)]⟩

/-- The set of one character. -/
def single (c : Char) : CharSet :=
  range c c

/-- The characters in one set or the other. -/
def union (s t : CharSet) : CharSet :=
  ⟨t.ranges.foldl (fun ranges (first, last) => addRange first last ranges) s.ranges⟩

/-- The characters not in a set. -/
def compl (s : CharSet) : CharSet :=
  ⟨gaps 0 s.ranges⟩

/-- The characters in both sets. -/
def inter (s t : CharSet) : CharSet :=
  (s.compl.union t.compl).compl

/-- The characters in the first set and not in the second. -/
def diff (s t : CharSet) : CharSet :=
  s.inter t.compl

/-- The characters in exactly one of two sets. -/
def symmDiff (s t : CharSet) : CharSet :=
  (s.union t).diff (s.inter t)

/-- The character of a set of one. -/
def single? (s : CharSet) : Option Char :=
  match s.ranges with
  | [(first, last)] => if first = last then some (atPlace first) else none
  | _ => none

/-- The union of some ranges. -/
def ofRanges (ranges : List (Char × Char)) : CharSet :=
  ranges.foldl (fun set (first, last) => set.union (range first last)) empty

/-- The decimal digits of ASCII. -/
def digit : CharSet :=
  range '0' '9'

/-- The capital letters of ASCII. -/
def upper : CharSet :=
  range 'A' 'Z'

/-- The small letters of ASCII. -/
def lower : CharSet :=
  range 'a' 'z'

/-- The blanks of ASCII. -/
def space : CharSet :=
  ofRanges [('\t', '\x0d'), (' ', ' ')]

/-- The letters and digits of ASCII and the underscore. -/
def word : CharSet :=
  ofRanges [('0', '9'), ('A', 'Z'), ('_', '_'), ('a', 'z')]

/-- The characters of a set and their counterparts in the other case, ASCII letters only. -/
def anyCase (s : CharSet) : CharSet :=
  let distance := place 'a' - place 'A'
  let lowered := (s.inter upper).ranges.map fun (a, b) => (a + distance, b + distance)
  let raised := (s.inter lower).ranges.map fun (a, b) => (a - distance, b - distance)
  (s.union ⟨lowered⟩).union ⟨raised⟩

/-- The sets of ASCII characters that have a name. -/
def ofAsciiName? : String → Option CharSet
  | "alnum" => some (ofRanges [('0', '9'), ('A', 'Z'), ('a', 'z')])
  | "alpha" => some (ofRanges [('A', 'Z'), ('a', 'z')])
  | "ascii" => some (range '\x00' '\x7f')
  | "blank" => some (ofRanges [('\t', '\t'), (' ', ' ')])
  | "cntrl" => some (ofRanges [('\x00', '\x1f'), ('\x7f', '\x7f')])
  | "digit" => some digit
  | "graph" => some (range '!' '~')
  | "lower" => some lower
  | "print" => some (range ' ' '~')
  | "punct" => some (ofRanges [('!', '/'), (':', '@'), ('[', '\x60'), ('\x7b', '~')])
  | "space" => some space
  | "upper" => some upper
  | "word" => some word
  | "xdigit" => some (ofRanges [('0', '9'), ('A', 'F'), ('a', 'f')])
  | _ => none

end CharSet

end Declass
