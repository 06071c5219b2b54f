/-!
# Messages

The messages that a program can draw on itself, each with a code, a category and a template.

## Main definitions

* `Category` — how grave a message is
* `Message`, `Message.table`, `Message.find?`
-/

namespace Declass

/-- How grave a message is. -/
inductive Category where
  | warning
  | error
  | suggestion
  | message
  deriving DecidableEq, Repr

/-- The word for a category in a displayed message. -/
def Category.name : Category → String
  | .warning => "warning"
  | .error => "error"
  | .suggestion => "suggestion"
  | .message => "message"

/-- A message with its number and a template for its text. -/
structure Message where
  code : Nat
  category : Category
  template : String
  deriving DecidableEq, Repr

namespace Message

/-- A name is used that no scope declares. -/
def nameNotDefined : Message :=
  ⟨5001, .error, "\x7b0\x7d is not defined"⟩

/-- `super(...)` outside a constructor. -/
def superCallOutsideConstructor : Message :=
  ⟨5002, .error, "'super' call is only valid inside a class constructor"⟩

/-- `super` in a function nested in a member. -/
def superOutsideMember : Message :=
  ⟨5003, .error, "'super' is only valid inside a class member"⟩

/-- `super` that is neither called nor accessed. -/
def bareSuper : Message :=
  ⟨5004, .error, "'super' must be followed by an argument list or member access"⟩

/-- All messages, by code. -/
def table : List Message :=
  [nameNotDefined, superCallOutsideConstructor, superOutsideMember, bareSuper]

/-- The message with a given code. -/
def find? (code : Nat) : Option Message :=
  table.find? (·.code == code)

end Message

end Declass
