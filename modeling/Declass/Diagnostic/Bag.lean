import Declass.Range
import Declass.Text.Template
import Declass.Diagnostic.Message

/-!
# Diagnostics

A diagnostic is a message filled in and tied to a file and, unless it concerns generated code, to a
range. A bag collects the diagnostics of one program in the order in which they are reported.

## Main definitions

* `Diagnostic`, `Diagnostic.display`
* `Bag`, `Bag.add`, `Bag.report`
* `Bag.listing` — the diagnostics in the order in which they are shown
-/

namespace Declass

/-- A problem of the program at hand. -/
structure Diagnostic where
  file : String
  range : Option Range
  text : String
  category : Category
  code : Nat
  deriving DecidableEq, Repr

namespace Diagnostic

/-- Whether the diagnostic counts as an error. -/
def isError (d : Diagnostic) : Bool :=
  d.category == .error

/-- One line: file, place, category, code and text. -/
def display (d : Diagnostic) : String :=
  let place := match d.range with
    | some range => d.file ++ "(" ++ range.display ++ "): "
    | none => d.file ++ ": "
  place ++ d.category.name ++ " LJS" ++ toString d.code ++ ": " ++ d.text

/-- Two diagnostics on undefined names at one place: neither comes before the other. -/
def tied (d e : Diagnostic) : Bool :=
  d.code == Message.nameNotDefined.code && e.code == Message.nameNotDefined.code
    && d.range == e.range

end Diagnostic

/-- The diagnostics of one program, in the order of report. -/
structure Bag where
  /-- The file named in reported diagnostics. -/
  file : String := ""
  diagnostics : Array Diagnostic := #[]
  deriving DecidableEq, Repr

namespace Bag

/-- Put a diagnostic into the bag. -/
def add (bag : Bag) (d : Diagnostic) : Bag :=
  { bag with diagnostics := bag.diagnostics.push d }

/-- The diagnostic that `message`, filled with `arguments`, makes in this bag's file. -/
def diagnostic (bag : Bag) (range : Option Range) (message : Message) (arguments : List String) :
    Diagnostic where
  file := bag.file
  range := range
  text := Text.fill message.template arguments
  category := message.category
  code := message.code

/-- Report a message at a range. -/
def report (bag : Bag) (range : Option Range) (message : Message) (arguments : List String) : Bag :=
  bag.add (bag.diagnostic range message arguments)

/-- The number of errors in the bag. -/
def errorCount (bag : Bag) : Nat :=
  bag.diagnostics.countP Diagnostic.isError

/-- Whether some diagnostic in the bag is an error. -/
def hasErrors (bag : Bag) : Bool :=
  bag.diagnostics.any Diagnostic.isError

/-- The number of diagnostics in the bag. -/
def size (bag : Bag) : Nat :=
  bag.diagnostics.size

/-- The diagnostics as they are shown: in the order of report, but each run of neighbours that are
tied is sorted by text. -/
def listing (bag : Bag) : List Diagnostic :=
  (bag.diagnostics.toList.splitBy Diagnostic.tied).flatMap
    fun run => run.mergeSort fun d e => decide (d.text ≤ e.text)

end Bag

end Declass
