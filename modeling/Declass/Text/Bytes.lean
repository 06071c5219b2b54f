/-!
# Offsets in bytes

A place in a text is given by the number of bytes in front of it, where texts are encoded as UTF-8.
A place inside a character counts as the one behind it.

## Main definitions

* `Text.byteSize`, `Text.takeBytes`, `Text.dropBytes`
* `Text.cut` — what stands between two places
-/

namespace Declass.Text

/-- The number of bytes of a text. -/
def byteSize : List Char → Nat
  | [] => 0
  | c :: cs => c.utf8Size + byteSize cs

/-- The text up to a place. -/
def takeBytes : Nat → List Char → List Char
  | 0, _ | _, [] => []
  | offset, c :: cs => c :: takeBytes (offset - c.utf8Size) cs

/-- The text from a place on. -/
def dropBytes : Nat → List Char → List Char
  | 0, cs => cs
  | _, [] => []
  | offset, c :: cs => dropBytes (offset - c.utf8Size) cs

/-- The text between two places. -/
def cut (start stop : Nat) (cs : List Char) : List Char :=
  takeBytes (stop - start) (dropBytes start cs)

end Declass.Text
