/-!
# Blanks

Words that a person typed are read without the blanks around them and without regard to case.

## Main definitions

* `Text.isBlank` — the characters that count as blanks
* `Text.normalize` — a word without blanks around it, in lower case
-/

namespace Declass.Text

/-- The blank characters: those with the Unicode property `White_Space`. -/
def isBlank (c : Char) : Bool :=
  let n := c.toNat
  (0x09 ≤ n && n ≤ 0x0D) || n == 0x20 || n == 0x85 || n == 0xA0 || n == 0x1680
    || (0x2000 ≤ n && n ≤ 0x200A) || n == 0x2028 || n == 0x2029 || n == 0x202F || n == 0x205F
    || n == 0x3000

/-- A text without the blanks at its start and at its end. -/
def trim (cs : List Char) : List Char :=
  ((cs.dropWhile isBlank).reverse.dropWhile isBlank).reverse

/-- A word as it is compared: without blanks around it and in lower case. Only ASCII letters are
lowered. The only other characters with an ASCII letter in their lower case are the Kelvin sign and
the dotted capital I, so the result is exact for words without `k` and `i`. -/
def normalize (word : String) : String :=
  String.ofList ((trim word.toList).map Char.toLower)

end Declass.Text
