import Declass.Text.Decimal

/-!
# Temporaries

Generated code keeps values in temporaries, variables named `$__0`, `$__1`, … Each program and each
function body has a scope of temporaries; what a scope still holds when it is closed is declared at
the top of that body. A temporary given back while its scope is innermost may be handed out again,
the lowest number first.

A temporary that is allocated while no scope is open belongs to nobody and is never given back.

## Main definitions

* `Temps` — the numbers in use, the numbers given back, and the open scopes
* `Temps.push`, `Temps.pop`, `Temps.allocate`, `Temps.release`
* `Temps.name`, `Temps.number?` — numbers as names and back
-/

namespace Declass

/-- The state of the allocation of temporaries. -/
structure Temps where
  /-- The lowest number never handed out. -/
  next : Nat := 0
  /-- The numbers given back, in ascending order. -/
  free : List Nat := []
  /-- The numbers held by the open scopes, innermost scope first, each in order of allocation. -/
  scopes : List (List Nat) := []
  deriving DecidableEq, Repr

namespace Temps

/-- The name of a temporary. -/
def name (number : Nat) : String :=
  "$__" ++ toString number

/-- The number that a name stands for; numbers have 32 bits. -/
def number? (name : String) : Option Nat :=
  match name.toList with
  | '$' :: '_' :: '_' :: digits => (Text.unsigned? digits).filter (· < UInt32.size)
  | _ => none

/-- Insert a number into an ascending list, once. -/
def insertAscending (n : Nat) : List Nat → List Nat
  | [] => [n]
  | m :: ms =>
    if n < m then n :: m :: ms
    else if n = m then m :: ms
    else m :: insertAscending n ms

/-- The number of open scopes. -/
def depth (t : Temps) : Nat :=
  t.scopes.length

/-- Open a scope. -/
def push (t : Temps) : Temps :=
  { t with scopes := [] :: t.scopes }

/-- Close the innermost scope and return the numbers it still holds. -/
def pop (t : Temps) : List Nat × Temps :=
  match t.scopes with
  | [] => ([], t)
  | held :: scopes => (held, { t with scopes })

/-- Put a number into the innermost scope, if one is open. -/
def hold (number : Nat) : List (List Nat) → List (List Nat)
  | [] => []
  | held :: scopes => (held ++ [number]) :: scopes

/-- Hand out the lowest number given back, or else a new one. -/
def allocate (t : Temps) : Nat × Temps :=
  match t.free with
  | number :: free => (number, { t with free, scopes := hold number t.scopes })
  | [] => (t.next, { t with next := t.next + 1, scopes := hold t.next t.scopes })

/-- Give a number back. Only the innermost scope can do so, and only with a number that it holds. -/
def release (t : Temps) (number : Nat) : Bool × Temps :=
  match t.scopes with
  | held :: scopes =>
    if number ∈ held then
      (true, { t with
        free := insertAscending number t.free
        scopes := held.erase number :: scopes })
    else
      (false, t)
  | [] => (false, t)

/-- Give back the temporary with a given name. -/
def releaseNamed (t : Temps) (name : String) : Bool × Temps :=
  match number? name with
  | some number => t.release number
  | none => (false, t)

@[simp]
theorem depth_push (t : Temps) : t.push.depth = t.depth + 1 := rfl

@[simp]
theorem pop_push (t : Temps) : t.push.pop = ([], t) := rfl

@[simp]
theorem depth_allocate (t : Temps) : t.allocate.2.depth = t.depth := by
  have length_hold (n : Nat) : (hold n t.scopes).length = t.scopes.length := by
    cases t.scopes <;> rfl
  unfold allocate
  split <;> exact length_hold _

end Temps

end Declass
