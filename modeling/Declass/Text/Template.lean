/-!
# Templates

A template is a text with placeholders, numbers between braces. It is filled one argument after
another: argument `i` replaces every placeholder `i` of the text as it stands at that moment, so a
placeholder that an earlier argument brought in is replaced too.

## Main definitions

* `Text.replaceAll` — every occurrence of a pattern, read from the left, replaced
* `Text.placeholder`, `Text.fill`
-/

namespace Declass.Text

/-- The text with every occurrence of `pattern` replaced. Occurrences are found from the left and
do not overlap; `skip` counts the characters of an occurrence still to be passed over. -/
def replaceFrom (pattern replacement : List Char) (skip : Nat) : List Char → List Char
  | [] => []
  | c :: cs =>
    match skip with
    | skip + 1 => replaceFrom pattern replacement skip cs
    | 0 =>
      if pattern.isPrefixOf (c :: cs) then
        replacement ++ replaceFrom pattern replacement (pattern.length - 1) cs
      else
        c :: replaceFrom pattern replacement 0 cs

/-- The text with every occurrence of `pattern`, read from the left, replaced. -/
def replaceAll (pattern replacement text : List Char) : List Char :=
  replaceFrom pattern replacement 0 text

/-- The placeholder of argument `i`: its number in decimal digits, between braces. -/
def placeholder (i : Nat) : List Char :=
  '\x7b' :: (toString i).toList ++ ['\x7d']

/-- Fill the placeholders of `template`, argument by argument. -/
def fill (template : String) (arguments : List String) : String :=
  String.ofList <| arguments.zipIdx.foldl
    (fun text argument => replaceAll (placeholder argument.2) argument.1.toList text)
    template.toList

end Declass.Text
