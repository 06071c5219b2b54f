import Declass.Log.Filter
import Declass.Text.Blank

/-!
# Showing the log

Settings say which part of the log is shown and in which form. Without a filter nothing is shown.

## Main definitions

* `Log.Format`, `Log.Settings`, `Log.Settings.override`
* `Log.shown`, `Log.output?` — the part of a log that settings let through
-/

namespace Declass.Log

/-- The forms in which a log can be shown. -/
inductive Format where
  | text
  | tree
  | json
  deriving DecidableEq, Repr

namespace Format

/-- Read a format leniently: what is not known stands for `text`. -/
def parse (word : String) : Format :=
  match Text.normalize word with
  | "tree" => .tree
  | "json" => .json
  | _ => .text

/-- Read a format strictly. -/
def ofName? : String → Option Format
  | "text" => some .text
  | "tree" => some .tree
  | "json" => some .json
  | _ => none

end Format

/-- Which part of the log is shown, and how. -/
structure Settings where
  filter : Option String := none
  format : Format := .text
  deriving DecidableEq, Repr

namespace Settings

/-- Put another filter and another format in the place of the settings' own. -/
def override (settings : Settings) (filter format : Option String) : Settings where
  filter := filter.or settings.filter
  format := (format.map Format.parse).getD settings.format

end Settings

/-- The events that a filter lets through, in order, each with those of its spans that pass as
well. -/
def passing (filter : Filter) (log : Log) : List (Event × List Span) :=
  log.entries.toList.filterMap fun
    | .event event spans =>
      let visible := filter.visible spans
      if filter.admitsEvent visible event then some (event, visible) else none
    | .opened _ _ => none

/-- The name of the reference that an event moves to an outer scope, if it is about that. -/
def movedName? (event : Event) : Option String :=
  if event.message == promotion then
    match event.fields.lookup "name" with
    | some (.text name) => some name
    | _ => none
  else
    none

/-- The events that a filter lets through as they are shown. The references that are moved in a row
have no order among themselves, so they are listed by name. -/
def shown (filter : Filter) (log : Log) : List (Event × List Span) :=
  let moves (entry : Event × List Span) : Option String := movedName? entry.1
  ((log.passing filter).splitBy fun a b => (moves a).isSome && (moves b).isSome).flatMap
    fun run => run.mergeSort fun a b => decide ((moves a).getD "" ≤ (moves b).getD "")

/-- Whether a filter lets some span or event through. -/
def isActive (filter : Filter) (log : Log) : Bool :=
  log.entries.any fun
    | .event event spans => filter.admitsEvent (filter.visible spans) event
    | .opened span outer => filter.admitsSpan (filter.visible outer) span

/-- What is seen of a log. -/
inductive Output where
  /-- The events, with their spans. -/
  | events (events : List (Event × List Span))
  /-- Whether anything was written. -/
  | written (any : Bool)
  deriving DecidableEq, Repr

/-- What settings let be seen of a log: nothing without a filter, the events themselves as `json`,
and in the other forms whether anything is written at all. -/
def output? (settings : Settings) (log : Log) : Option Output :=
  settings.filter.map fun text =>
    let filter := Filter.parse text
    match settings.format with
    | .json => .events (log.shown filter)
    | .text => .written !(log.shown filter).isEmpty
    | .tree => .written (log.isActive filter)

end Declass.Log
