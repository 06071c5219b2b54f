/-!
# Places in a source text

Positions, and ranges between two positions. Lines and columns count from zero and are displayed
from one. Both types are ordered as they stand in the text: positions by line and then by column,
ranges by their start and then by their stop.

## Main definitions

* `Position`, `Range`
* `Range.onLine` — a run of columns on one line
* `Position.display`, `Range.display` — the texts used in messages
-/

namespace Declass

/-- A place in a text, counted from zero. -/
structure Position where
  line : Nat
  column : Nat
  deriving DecidableEq, Inhabited, Repr

namespace Position

instance : Ord Position where
  compare p q := (compare p.line q.line).then (compare p.column q.column)

/-- Line and column, counted from one. -/
def display (p : Position) : String :=
  s!"{p.line + 1}:{p.column + 1}"

end Position

/-- The part of a text between two places. Nothing forces `start` to come first. -/
structure Range where
  start : Position
  stop : Position
  deriving DecidableEq, Inhabited, Repr

namespace Range

instance : Ord Range where
  compare r s := (compare r.start s.start).then (compare r.stop s.stop)

/-- The `width` columns of line `line` that begin at `column`. -/
def onLine (line column width : Nat) : Range :=
  ⟨⟨line, column⟩, ⟨line, column + width⟩⟩

/-- Whether `r` stands before `s` or is equal to it. -/
def ble (r s : Range) : Bool :=
  (compare r s).isLE

/-- The first of a list of ranges in the order of the text. -/
def first? : List Range → Option Range
  | [] => none
  | r :: rs => some (rs.foldl (fun best s => if best.ble s then best else s) r)

/-- The last of a list of ranges in the order of the text. -/
def last? : List Range → Option Range
  | [] => none
  | r :: rs => some (rs.foldl (fun best s => if best.ble s then s else best) r)

/-- A list of ranges in the order of the text. -/
def sort (rs : List Range) : List Range :=
  rs.mergeSort ble

/-- A range is displayed as the place where it starts. -/
def display (r : Range) : String :=
  r.start.display

end Range

end Declass
