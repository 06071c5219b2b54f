/-!
# Shapes of syntax nodes

A shape is one construct of the language with its parts named: words, operators and names are given
in place, and sub-constructs are values of a parameter type `α`. In a store `α` is the type of node
indices; any other view of a tree uses the same shapes with another `α`.

The children of a shape have one order, that of the source text. `Shape.children` lists them in that
order and `Shape.mapM` visits them in it, keeping everything that is not a child.

## Main definitions

* `VarKeyword`, `PropertyName`, `Literal` — the words of the language that carry a choice
* `Shape`, `Shape.kind`, `Shape.isFunctionLike`
* `Shape.children`, `Shape.map`, `Shape.mapM`
-/

namespace Declass

/-- The word that opens a variable statement. -/
inductive VarKeyword where
  | varWord
  | letWord
  | constWord
  deriving DecidableEq, Repr

namespace VarKeyword

/-- The keyword as written. -/
def text : VarKeyword → String
  | .varWord => "var"
  | .letWord => "let"
  | .constWord => "const"

/-- `let` and `const` bind in the enclosing block, `var` in the enclosing function. -/
def isBlockScoped : VarKeyword → Bool
  | .varWord => false
  | .letWord | .constWord => true

end VarKeyword

/-- The name of a property or of a class member. -/
inductive PropertyName where
  | identifier (name : String)
  | quoted (value : String)
  | numeric (digits : String)
  deriving DecidableEq, Repr

namespace PropertyName

/-- The key that the name stands for. -/
def text : PropertyName → String
  | .identifier s | .quoted s | .numeric s => s

/-- A constructor is named `constructor`, with or without quotes. -/
def isConstructor : PropertyName → Bool
  | .identifier s | .quoted s => s == "constructor"
  | .numeric _ => false

end PropertyName

/-- A literal. Numbers are kept as written. -/
inductive Literal where
  | null
  | boolean (value : Bool)
  | number (digits : String)
  | string (value : String)
  deriving DecidableEq, Repr

/-- A construct of the language with sub-constructs in `α`. -/
inductive Shape (α : Type) where
  /-- A whole program. -/
  | program (statements : List α)
  /-- Statements between braces. -/
  | block (statements : List α)
  /-- `var a = 1, b;` -/
  | varStatement (keyword : VarKeyword) (declarators : List α)
  /-- One name of a variable statement, with its value. -/
  | declarator (name : α) (value : Option α)
  /-- `function name(parameters) body` -/
  | functionDecl (name : α) (parameters : List α) (body : α)
  /-- `class name extends heritage` with members. -/
  | classDecl (name : α) (heritage : Option α) (members : List α)
  /-- `expression;` -/
  | exprStatement (expression : α)
  /-- `return expression;` -/
  | returnStatement (expression : Option α)
  /-- `if (condition) consequent else alternative` -/
  | ifStatement (condition consequent : α) (alternative : Option α)
  /-- `while (condition) body` -/
  | whileStatement (condition body : α)
  /-- `for (start; condition; step) body` -/
  | forStatement (start condition step : Option α) (body : α)
  /-- `throw expression;` -/
  | throwStatement (expression : α)
  /-- `try body` with a catch clause and a `finally` block. -/
  | tryStatement (body : α) (handler finalizer : Option α)
  /-- `catch (caught) body` -/
  | catchClause (caught body : α)
  /-- `;` -/
  | emptyStatement
  /-- A name where it is declared. -/
  | binding (name : String)
  /-- A parameter: `name`, `name = value` or `...name`. -/
  | parameter (name : α) (value : Option α) (rest : Bool)
  /-- A name where it is used. -/
  | identifier (name : String)
  /-- `this` -/
  | thisExpr
  /-- `super` -/
  | superExpr
  /-- A literal. -/
  | literal (value : Literal)
  /-- `[elements]` -/
  | array (elements : List α)
  /-- Properties between braces. -/
  | object (properties : List α)
  /-- `name: value` -/
  | property (name : PropertyName) (value : α)
  /-- `name(parameters) body` -/
  | method (name : PropertyName) (parameters : List α) (body : α)
  /-- `get name() body` -/
  | getter (name : PropertyName) (body : α)
  /-- `set name(incoming) body` -/
  | setter (name : PropertyName) (incoming body : α)
  /-- `function name(parameters) body`, the name left out or not. -/
  | functionExpr (name : Option α) (parameters : List α) (body : α)
  /-- `(parameters) => body` -/
  | arrow (parameters : List α) (body : α)
  /-- A class in an expression. -/
  | classExpr (name heritage : Option α) (members : List α)
  /-- `callee(arguments)` -/
  | call (callee : α) (arguments : List α)
  /-- `new callee(arguments)` -/
  | newExpr (callee : α) (arguments : List α)
  /-- `target.name` -/
  | member (target : α) (name : String)
  /-- `target[index]` -/
  | lookup (target index : α)
  /-- `left operator right`, assignments included. -/
  | binary (left : α) (operator : String) (right : α)
  /-- `operator operand` -/
  | unary (operator : String) (operand : α)
  /-- `condition ? consequent : alternative` -/
  | conditional (condition consequent alternative : α)
  /-- `(expression)` -/
  | paren (expression : α)
  /-- `a, b, c` -/
  | comma (expressions : List α)
  /-- `...expression` -/
  | spread (expression : α)
  deriving DecidableEq

namespace Shape

variable {α β γ : Type}

/-- The name of the construct, as messages give it. -/
def kind : Shape α → String
  | .program .. => "Program"
  | .block .. => "Block"
  | .varStatement .. => "VariableStatement"
  | .declarator .. => "VariableDeclaration"
  | .functionDecl .. => "FunctionDeclaration"
  | .classDecl .. => "ClassDeclaration"
  | .exprStatement .. => "ExpressionStatement"
  | .returnStatement .. => "ReturnStatement"
  | .ifStatement .. => "IfStatement"
  | .whileStatement .. => "WhileStatement"
  | .forStatement .. => "ForStatement"
  | .throwStatement .. => "ThrowStatement"
  | .tryStatement .. => "TryStatement"
  | .catchClause .. => "CatchClause"
  | .emptyStatement => "EmptyStatement"
  | .binding .. => "BindingIdentifier"
  | .parameter .. => "FormalParameter"
  | .identifier .. => "IdentifierExpression"
  | .thisExpr => "ThisExpression"
  | .superExpr => "SuperExpression"
  | .literal .. => "Literal"
  | .array .. => "ArrayLiteral"
  | .object .. => "ObjectLiteral"
  | .property .. => "PropertyNameAssignment"
  | .method .. => "PropertyMethodAssignment"
  | .getter .. => "GetAccessor"
  | .setter .. => "SetAccessor"
  | .functionExpr .. => "FunctionExpression"
  | .arrow .. => "ArrowFunction"
  | .classExpr .. => "ClassExpression"
  | .call .. => "CallExpression"
  | .newExpr .. => "NewExpression"
  | .member .. => "MemberExpression"
  | .lookup .. => "MemberLookupExpression"
  | .binary .. => "BinaryExpression"
  | .unary .. => "UnaryExpression"
  | .conditional .. => "ConditionalExpression"
  | .paren .. => "ParenExpression"
  | .comma .. => "CommaExpression"
  | .spread .. => "SpreadExpression"

/-- Functions, arrows, methods and accessors: the constructs with a body of their own. -/
def isFunctionLike : Shape α → Bool
  | .functionDecl .. | .functionExpr .. | .arrow .. | .method .. | .getter .. | .setter .. => true
  | _ => false

/-- The children, in the order of the source text. -/
def children : Shape α → List α
  | .program statements | .block statements => statements
  | .varStatement _ declarators => declarators
  | .declarator name value => name :: value.toList
  | .functionDecl name parameters body => name :: (parameters ++ [body])
  | .classDecl name heritage members => name :: (heritage.toList ++ members)
  | .exprStatement expression | .throwStatement expression => [expression]
  | .returnStatement expression => expression.toList
  | .ifStatement condition consequent alternative =>
    condition :: consequent :: alternative.toList
  | .whileStatement condition body => [condition, body]
  | .forStatement start condition step body =>
    start.toList ++ (condition.toList ++ (step.toList ++ [body]))
  | .tryStatement body handler finalizer => body :: (handler.toList ++ finalizer.toList)
  | .catchClause caught body => [caught, body]
  | .parameter name value _ => name :: value.toList
  | .array elements => elements
  | .object properties => properties
  | .property _ value => [value]
  | .method _ parameters body | .arrow parameters body => parameters ++ [body]
  | .getter _ body => [body]
  | .setter _ incoming body => [incoming, body]
  | .functionExpr name parameters body => name.toList ++ (parameters ++ [body])
  | .classExpr name heritage members => name.toList ++ (heritage.toList ++ members)
  | .call callee arguments | .newExpr callee arguments => callee :: arguments
  | .member target _ => [target]
  | .lookup target index => [target, index]
  | .binary left _ right => [left, right]
  | .unary _ operand => [operand]
  | .conditional condition consequent alternative => [condition, consequent, alternative]
  | .paren expression | .spread expression => [expression]
  | .comma expressions => expressions
  | .emptyStatement | .binding _ | .identifier _ | .thisExpr | .superExpr | .literal _ => []

/-- Apply `f` to every child. -/
def map (f : α → β) : Shape α → Shape β
  | .program statements => .program (statements.map f)
  | .block statements => .block (statements.map f)
  | .varStatement keyword declarators => .varStatement keyword (declarators.map f)
  | .declarator name value => .declarator (f name) (value.map f)
  | .functionDecl name parameters body => .functionDecl (f name) (parameters.map f) (f body)
  | .classDecl name heritage members => .classDecl (f name) (heritage.map f) (members.map f)
  | .exprStatement expression => .exprStatement (f expression)
  | .returnStatement expression => .returnStatement (expression.map f)
  | .ifStatement condition consequent alternative =>
    .ifStatement (f condition) (f consequent) (alternative.map f)
  | .whileStatement condition body => .whileStatement (f condition) (f body)
  | .forStatement start condition step body =>
    .forStatement (start.map f) (condition.map f) (step.map f) (f body)
  | .throwStatement expression => .throwStatement (f expression)
  | .tryStatement body handler finalizer =>
    .tryStatement (f body) (handler.map f) (finalizer.map f)
  | .catchClause caught body => .catchClause (f caught) (f body)
  | .emptyStatement => .emptyStatement
  | .binding name => .binding name
  | .parameter name value rest => .parameter (f name) (value.map f) rest
  | .identifier name => .identifier name
  | .thisExpr => .thisExpr
  | .superExpr => .superExpr
  | .literal value => .literal value
  | .array elements => .array (elements.map f)
  | .object properties => .object (properties.map f)
  | .property name value => .property name (f value)
  | .method name parameters body => .method name (parameters.map f) (f body)
  | .getter name body => .getter name (f body)
  | .setter name incoming body => .setter name (f incoming) (f body)
  | .functionExpr name parameters body =>
    .functionExpr (name.map f) (parameters.map f) (f body)
  | .arrow parameters body => .arrow (parameters.map f) (f body)
  | .classExpr name heritage members =>
    .classExpr (name.map f) (heritage.map f) (members.map f)
  | .call callee arguments => .call (f callee) (arguments.map f)
  | .newExpr callee arguments => .newExpr (f callee) (arguments.map f)
  | .member target name => .member (f target) name
  | .lookup target index => .lookup (f target) (f index)
  | .binary left operator right => .binary (f left) operator (f right)
  | .unary operator operand => .unary operator (f operand)
  | .conditional condition consequent alternative =>
    .conditional (f condition) (f consequent) (f alternative)
  | .paren expression => .paren (f expression)
  | .comma expressions => .comma (expressions.map f)
  | .spread expression => .spread (f expression)

/-- Visit every child with `f`, in the order of `children`, and put the results in their places. -/
def mapM {m : Type → Type} [Monad m] (f : α → m β) : Shape α → m (Shape β)
  | .program statements => return .program (← statements.mapM f)
  | .block statements => return .block (← statements.mapM f)
  | .varStatement keyword declarators => return .varStatement keyword (← declarators.mapM f)
  | .declarator name value => return .declarator (← f name) (← value.mapM f)
  | .functionDecl name parameters body =>
    return .functionDecl (← f name) (← parameters.mapM f) (← f body)
  | .classDecl name heritage members =>
    return .classDecl (← f name) (← heritage.mapM f) (← members.mapM f)
  | .exprStatement expression => return .exprStatement (← f expression)
  | .returnStatement expression => return .returnStatement (← expression.mapM f)
  | .ifStatement condition consequent alternative =>
    return .ifStatement (← f condition) (← f consequent) (← alternative.mapM f)
  | .whileStatement condition body => return .whileStatement (← f condition) (← f body)
  | .forStatement start condition step body =>
    return .forStatement (← start.mapM f) (← condition.mapM f) (← step.mapM f) (← f body)
  | .throwStatement expression => return .throwStatement (← f expression)
  | .tryStatement body handler finalizer =>
    return .tryStatement (← f body) (← handler.mapM f) (← finalizer.mapM f)
  | .catchClause caught body => return .catchClause (← f caught) (← f body)
  | .emptyStatement => return .emptyStatement
  | .binding name => return .binding name
  | .parameter name value rest => return .parameter (← f name) (← value.mapM f) rest
  | .identifier name => return .identifier name
  | .thisExpr => return .thisExpr
  | .superExpr => return .superExpr
  | .literal value => return .literal value
  | .array elements => return .array (← elements.mapM f)
  | .object properties => return .object (← properties.mapM f)
  | .property name value => return .property name (← f value)
  | .method name parameters body => return .method name (← parameters.mapM f) (← f body)
  | .getter name body => return .getter name (← f body)
  | .setter name incoming body => return .setter name (← f incoming) (← f body)
  | .functionExpr name parameters body =>
    return .functionExpr (← name.mapM f) (← parameters.mapM f) (← f body)
  | .arrow parameters body => return .arrow (← parameters.mapM f) (← f body)
  | .classExpr name heritage members =>
    return .classExpr (← name.mapM f) (← heritage.mapM f) (← members.mapM f)
  | .call callee arguments => return .call (← f callee) (← arguments.mapM f)
  | .newExpr callee arguments => return .newExpr (← f callee) (← arguments.mapM f)
  | .member target name => return .member (← f target) name
  | .lookup target index => return .lookup (← f target) (← f index)
  | .binary left operator right => return .binary (← f left) operator (← f right)
  | .unary operator operand => return .unary operator (← f operand)
  | .conditional condition consequent alternative =>
    return .conditional (← f condition) (← f consequent) (← f alternative)
  | .paren expression => return .paren (← f expression)
  | .comma expressions => return .comma (← expressions.mapM f)
  | .spread expression => return .spread (← f expression)

/-- The children of a mapped shape are the mapped children. -/
@[simp]
theorem children_map (f : α → β) (s : Shape α) : (s.map f).children = s.children.map f := by
  cases s <;> simp [map, children, Option.toList_map]

@[simp]
theorem kind_map (f : α → β) (s : Shape α) : (s.map f).kind = s.kind := by
  cases s <;> rfl

@[simp]
theorem map_id (s : Shape α) : s.map id = s := by
  cases s <;> simp [map]

/-- Two maps over a shape are one. -/
@[simp]
theorem map_map (g : β → γ) (f : α → β) (s : Shape α) : (s.map f).map g = s.map (g ∘ f) := by
  cases s <;> simp [map]

end Shape

end Declass
