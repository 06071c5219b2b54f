/-!
# Decimal numbers

Numbers that stand in names and in settings are written with decimal digits.

## Main definitions

* `Text.decimal?` — the value of digits
* `Text.unsigned?` — the value of digits with perhaps a plus sign in front
* `Text.isReal` — whether a text is a number at all
-/

namespace Declass.Text

/-- The value of decimal digits, or nothing if some character is not a digit or there is none. -/
def decimal? (digits : List Char) : Option Nat :=
  if digits.isEmpty || !digits.all Char.isDigit then
    none
  else
    some (digits.foldl (fun value c => 10 * value + (c.toNat - '0'.toNat)) 0)

/-- The number that a text stands for. Leading zeros and one plus sign are read over. -/
def unsigned? : List Char → Option Nat
  | '+' :: digits => decimal? digits
  | digits => decimal? digits

/-- Whether a text is the exponent of a number, or nothing. -/
def isExponent : List Char → Bool
  | 'e' :: '+' :: digits | 'e' :: '-' :: digits | 'e' :: digits
  | 'E' :: '+' :: digits | 'E' :: '-' :: digits | 'E' :: digits => (decimal? digits).isSome
  | rest => rest.isEmpty

/-- Whether a text is a number with perhaps a point and an exponent. There must be a digit in front
of the point or behind it. -/
def isScientific (cs : List Char) : Bool :=
  let rest := cs.dropWhile Char.isDigit
  let hasDigits := cs.head?.any Char.isDigit
  match rest with
  | '.' :: fraction =>
    (hasDigits || fraction.head?.any Char.isDigit) && isExponent (fraction.dropWhile Char.isDigit)
  | _ => hasDigits && isExponent rest

/-- Whether a text without a sign is a number, an infinity or the word for what is no number. -/
def isMagnitude (cs : List Char) : Bool :=
  let word := String.ofList (cs.map Char.toLower)
  isScientific cs || word == "inf" || word == "infinity" || word == "nan"

/-- Whether a text is a number, with perhaps a sign. -/
def isReal : List Char → Bool
  | '+' :: cs | '-' :: cs => isMagnitude cs
  | cs => isMagnitude cs

end Declass.Text
