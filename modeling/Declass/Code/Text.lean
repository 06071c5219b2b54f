import Declass.Code.Store

/-!
# The text of a program

Printing lays out one construct at a time: `Shape.text` gives the text of a shape from the texts of
its children, which may depend on the indentation they stand at. Parentheses are printed where the
tree has them and nowhere else.

## Main definitions

* `Text.quote` — a string literal
* `Shape.text` — the text of one construct
* `Store.text` — the text of a node and all that is below it
-/

namespace Declass

namespace Text

/-- A character of a string literal. Quotes, backslashes and line feeds are escaped. -/
def escape (c : Char) : List Char :=
  if c = '"' then ['\\', '"']
  else if c = '\\' then ['\\', '\\']
  else if c = '\n' then ['\\', 'n']
  else [c]

/-- The string literal of a value, between double quotes. -/
def quote (value : String) : String :=
  String.ofList ('"' :: value.toList.flatMap escape ++ ['"'])

/-- A line break followed by `depth` steps of indentation. -/
def newline (depth : Nat) : String :=
  String.ofList ('\n' :: List.replicate (4 * depth) ' ')

/-- Texts between parentheses, with commas. -/
def parenthesized (texts : List String) : String :=
  "(" ++ ", ".intercalate texts ++ ")"

/-- Texts between braces, each on a line of its own, one step further in than the braces. Every
text but the last is followed by `separator`. -/
def braced (separator : String) (depth : Nat) (texts : List String) : String :=
  if texts.isEmpty then
    "\x7b\x7d"
  else
    "\x7b" ++ newline (depth + 1) ++ (separator ++ newline (depth + 1)).intercalate texts
      ++ newline depth ++ "\x7d"

/-- The start of a `for` loop. A variable statement brings its own semicolon. -/
def terminated (text : String) : String :=
  if text.toList.getLast? = some ';' then text else text ++ ";"

/-- A prefix operator; one that is a word is set off by a blank. -/
def operator (operator : String) : String :=
  if operator.toList.all Char.isAlpha then operator ++ " " else operator

end Text

namespace PropertyName

/-- A property name as it is printed. -/
def display : PropertyName → String
  | .identifier s | .numeric s => s
  | .quoted s => Text.quote s

end PropertyName

namespace Literal

/-- A literal as it is printed. -/
def display : Literal → String
  | .null => "null"
  | .boolean true => "true"
  | .boolean false => "false"
  | .number digits => digits
  | .string value => Text.quote value

end Literal

namespace Shape

open Text

variable {α : Type}

/-- `lead` and the text of a child, or nothing without the child. -/
def optional (emit : α → String) (lead : String) : Option α → String
  | some a => lead ++ emit a
  | none => ""

/-- The text of a construct that stands at indentation `depth`, from the texts of its children.
`emit depth a` is the text of the child `a` at indentation `depth`. -/
def text (emit : Nat → α → String) (depth : Nat) : Shape α → String
  | .program statements => (newline depth).intercalate (statements.map (emit depth))
  | .block statements => braced "" depth (statements.map (emit (depth + 1)))
  | .varStatement keyword declarators =>
    keyword.text ++ " " ++ ", ".intercalate (declarators.map (emit depth)) ++ ";"
  | .declarator name value => emit depth name ++ optional (emit depth) " = " value
  | .functionDecl name parameters body =>
    "function " ++ emit depth name ++ parenthesized (parameters.map (emit depth)) ++ " "
      ++ emit depth body
  | .classDecl name heritage members =>
    "class " ++ emit depth name ++ optional (emit depth) " extends " heritage ++ " "
      ++ braced "" depth (members.map (emit (depth + 1)))
  | .classExpr name heritage members =>
    "class" ++ optional (emit depth) " " name ++ optional (emit depth) " extends " heritage ++ " "
      ++ braced "" depth (members.map (emit (depth + 1)))
  | .exprStatement expression => emit depth expression ++ ";"
  | .returnStatement expression => "return" ++ optional (emit depth) " " expression ++ ";"
  | .ifStatement condition consequent alternative =>
    "if (" ++ emit depth condition ++ ") " ++ emit depth consequent
      ++ optional (emit depth) " else " alternative
  | .whileStatement condition body => "while (" ++ emit depth condition ++ ") " ++ emit depth body
  | .forStatement start condition step body =>
    "for (" ++ terminated (optional (emit depth) "" start) ++ optional (emit depth) " " condition
      ++ ";" ++ optional (emit depth) " " step ++ ") " ++ emit depth body
  | .throwStatement expression => "throw " ++ emit depth expression ++ ";"
  | .tryStatement body handler finalizer =>
    "try " ++ emit depth body ++ optional (emit depth) " " handler
      ++ optional (emit depth) " finally " finalizer
  | .catchClause caught body => "catch (" ++ emit depth caught ++ ") " ++ emit depth body
  | .emptyStatement => ";"
  | .binding name => name
  | .parameter name value rest =>
    (if rest then "..." else "") ++ emit depth name ++ optional (emit depth) " = " value
  | .identifier name => name
  | .thisExpr => "this"
  | .superExpr => "super"
  | .literal value => value.display
  | .array elements => "[" ++ ", ".intercalate (elements.map (emit depth)) ++ "]"
  | .object properties => braced "," depth (properties.map (emit (depth + 1)))
  | .property name value => name.display ++ ": " ++ emit depth value
  | .method name parameters body =>
    name.display ++ parenthesized (parameters.map (emit depth)) ++ " " ++ emit depth body
  | .getter name body => "get " ++ name.display ++ "() " ++ emit depth body
  | .setter name incoming body =>
    "set " ++ name.display ++ "(" ++ emit depth incoming ++ ") " ++ emit depth body
  | .functionExpr name parameters body =>
    "function " ++ optional (emit depth) "" name ++ parenthesized (parameters.map (emit depth))
      ++ " " ++ emit depth body
  | .arrow parameters body =>
    parenthesized (parameters.map (emit depth)) ++ " => " ++ emit depth body
  | .call callee arguments => emit depth callee ++ parenthesized (arguments.map (emit depth))
  | .newExpr callee arguments =>
    "new " ++ emit depth callee ++ parenthesized (arguments.map (emit depth))
  | .member target name => emit depth target ++ "." ++ name
  | .lookup target index => emit depth target ++ "[" ++ emit depth index ++ "]"
  | .binary left operator right =>
    emit depth left ++ " " ++ operator ++ " " ++ emit depth right
  | .unary operator operand => Text.operator operator ++ emit depth operand
  | .conditional condition consequent alternative =>
    emit depth condition ++ " ? " ++ emit depth consequent ++ " : " ++ emit depth alternative
  | .paren expression => "(" ++ emit depth expression ++ ")"
  | .comma expressions => ", ".intercalate (expressions.map (emit depth))
  | .spread expression => "..." ++ emit depth expression

end Shape

namespace Store

/-- The text of the node at `id` at indentation `depth`, down to `height` levels. An index that
names no node leaves a comment. -/
def textTo (s : Store) : Nat → Nat → NodeId → String
  | 0, _, _ => "/* ... */"
  | height + 1, depth, id =>
    match s.get? id with
    | some node => node.shape.text (s.textTo height) depth
    | none => "/* missing node */"

/-- The text of the node at `id`. No tree in the store is higher than the store is large, so every
level is printed. -/
def text (s : Store) (id : NodeId) : String :=
  s.textTo (s.size + 1) 0 id

end Store

end Declass
