import Declass.Diagnostic.Bag
import Declass.Log.Basic

/-!
# The journal of a run

What a run tells beside its result: the diagnostics on the program at hand, and the log.

## Main definitions

* `Journal`, `Journal.report`, `Journal.record`
-/

namespace Declass

/-- What a run tells: problems of the program, and notes on the run. -/
structure Journal where
  bag : Bag := {}
  log : Log := {}
  deriving DecidableEq, Repr

namespace Journal

/-- Report a problem of the program. -/
def report (journal : Journal) (range : Option Range) (message : Message)
    (arguments : List String) : Journal :=
  { journal with bag := journal.bag.report range message arguments }

/-- Note an event. -/
def record (journal : Journal) (event : Log.Event) : Journal :=
  { journal with log := journal.log.record event }

/-- Open a span of the log. -/
def enter (journal : Journal) (span : Log.Span) : Journal :=
  { journal with log := journal.log.enter span }

/-- Close the innermost span of the log. -/
def leave (journal : Journal) : Journal :=
  { journal with log := journal.log.leave }

end Journal

end Declass
