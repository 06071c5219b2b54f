/-!
# The log of a run

Passes note what they do as events. An event has a level, a target that says which part of the
library speaks, a message and some fields. Events happen inside spans, which have a level and a
target of their own. The log keeps everything in order; what of it is shown is decided afterwards by
a filter.

## Main definitions

* `Log.Level`, `Log.Value`, `Log.Event`, `Log.Span`
* `Log`, `Log.record`, `Log.enter`, `Log.leave`
-/

namespace Declass

namespace Log

/-- How important a note is. -/
inductive Level where
  | error
  | warn
  | info
  | debug
  | trace
  deriving DecidableEq, Repr

namespace Level

/-- The place of a level, from the gravest to the most detailed. -/
def rank : Level → Nat
  | .error => 1
  | .warn => 2
  | .info => 3
  | .debug => 4
  | .trace => 5

/-- Whether a level is shown where `most` is the most detailed level shown; without one, none is. -/
def within (level : Level) (most : Option Level) : Bool :=
  most.any fun most => level.rank ≤ most.rank

/-- The name of a level. -/
def name : Level → String
  | .error => "ERROR"
  | .warn => "WARN"
  | .info => "INFO"
  | .debug => "DEBUG"
  | .trace => "TRACE"

end Level

/-- The value of a field. -/
inductive Value where
  | number (value : Nat)
  | flag (value : Bool)
  | text (value : String)
  deriving DecidableEq, Repr

/-- Named values, in order. -/
abbrev Fields : Type :=
  List (String × Value)

/-- Something that happened. -/
structure Event where
  level : Level
  target : String
  message : String
  fields : Fields
  deriving DecidableEq, Repr

/-- The message of an event that moves a reference to the enclosing scope. -/
def promotion : String :=
  "promote reference"

/-- A stretch of a run. -/
structure Span where
  level : Level
  target : String
  name : String
  fields : Fields
  deriving DecidableEq, Repr

/-- An entry of the log: a span that begins, or an event, inside the spans open at that moment,
outermost first. -/
inductive Entry where
  | opened (span : Span) (outer : List Span)
  | event (event : Event) (spans : List Span)
  deriving DecidableEq, Repr

end Log

/-- What has happened so far. -/
structure Log where
  /-- The spans that are open, outermost first. -/
  spans : List Log.Span := []
  entries : Array Log.Entry := #[]
  deriving DecidableEq, Repr

namespace Log

/-- Note an event. -/
def record (log : Log) (event : Event) : Log :=
  { log with entries := log.entries.push (.event event log.spans) }

/-- Open a span. -/
def enter (log : Log) (span : Span) : Log where
  spans := log.spans ++ [span]
  entries := log.entries.push (.opened span log.spans)

/-- Close the innermost span. -/
def leave (log : Log) : Log :=
  { log with spans := log.spans.dropLast }

end Log

end Declass
