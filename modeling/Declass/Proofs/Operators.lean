import Declass.Lowering.Super

/-!
# Operators

The operators of the language and how tightly they bind. A tree is written out as it stands, with
parentheses only where it has a construct for them. So an operand must bind tightly enough for its
place, or the text that is written stands for another tree.

The levels are those of the language's table of precedences, from `1` for the comma to `18` for
parentheses and single words.

## Main definitions

* `arithmeticOperators`, `logicalOperators`, `assignmentOperators`, `binaryOperators`
* `Shape.level` — how tightly a construct binds
* `Shape.standsRightOf` — whether a construct can be the right operand of an operator

## Main results

* `eq_of_compoundOperator?` — how compound assignments are written
-/

namespace Declass

/-- The operators of arithmetic and on bits, with their levels. -/
def arithmeticOperators : List (String × Nat) :=
  [("**", 13), ("*", 12), ("/", 12), ("%", 12), ("+", 11), ("-", 11), ("<<", 10), (">>", 10),
    (">>>", 10), ("&", 7), ("^", 6), ("|", 5)]

/-- The operators that may leave their right side out, with their levels. -/
def logicalOperators : List (String × Nat) :=
  [("&&", 4), ("||", 3), ("??", 3)]

/-- The operators that compare, with their levels. -/
def comparisonOperators : List (String × Nat) :=
  [("<", 9), ("<=", 9), (">", 9), (">=", 9), ("in", 9), ("instanceof", 9), ("==", 8), ("!=", 8),
    ("===", 8), ("!==", 8)]

/-- The operators that assign to their left operand. They all have the same level. -/
def assignmentOperators : List String :=
  "=" :: (arithmeticOperators ++ logicalOperators).map fun o => o.1 ++ "="

/-- All operators with two operands, with their levels. -/
def binaryOperators : List (String × Nat) :=
  arithmeticOperators ++ logicalOperators ++ comparisonOperators ++ assignmentOperators.map (·, 2)

/-- A compound assignment is written as the operator it applies with `=` after it. -/
theorem eq_of_compoundOperator? {operator operator' : String}
    (h : compoundOperator? operator = some operator') : operator = operator' ++ "=" := by
  rw [compoundOperator?] at h
  split at h
  case isTrue => cases h
  case isFalse =>
    split at h <;> cases h
    case h_1 c cs hreverse =>
      have hlist : operator.toList = (c :: cs).reverse ++ ['='] := by
        rw [← List.reverse_reverse operator.toList, hreverse, List.reverse_cons]
      rw [← String.ofList_toList (s := operator), hlist, String.ofList_append]

/-- How tightly an operator binds. What is no operator does not bind at all. -/
def operatorLevel (operator : String) : Nat :=
  (binaryOperators.lookup operator).getD 0

namespace Shape

variable {α β : Type}

/-- How tightly an expression binds. -/
def level : Shape α → Nat
  | .comma _ => 1
  | .conditional .. | .arrow .. | .spread _ => 2
  | .binary _ operator _ => operatorLevel operator
  | .unary .. => 14
  | .call .. | .newExpr .. | .member .. | .lookup .. => 17
  | .identifier _ | .thisExpr | .superExpr | .literal _ | .array _ | .object _ | .functionExpr ..
  | .classExpr .. | .paren _ => 18
  | _ => 0

theorem level_map (f : α → β) (s : Shape α) : (s.map f).level = s.level := by
  cases s <;> rfl

/-- Whether an expression can be the right operand of an operator without parentheses around it, or
has them. Only `**` groups to the right. -/
def standsRightOf (operator : String) (s : Shape α) : Bool :=
  operatorLevel operator < s.level || operator = "**" && s.level = operatorLevel operator

theorem standsRightOf_map (f : α → β) (operator : String) (s : Shape α) :
    (s.map f).standsRightOf operator = s.standsRightOf operator := by
  rw [standsRightOf, standsRightOf, level_map]

end Shape

end Declass
