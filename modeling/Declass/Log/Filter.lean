import Declass.Log.Directive

/-!
# Filters of the log

A filter is a list of directives. It is written with commas between them; a directive that cannot be
read is passed over, and without any directive only errors are shown.

A note is shown for one of two reasons. The first is its own: of the directives about its target the
one with the longest target decides, and among equals the last, and the note's level must be no more
detailed than the directive's. The second is its place: inside a span that a directive names
everything is shown down to that directive's level.

A span that a directive names is shown itself, unless it is more detailed than everything that the
filter could show.

## Main definitions

* `Log.Filter`, `Log.Filter.parse`
* `Log.Filter.visible`, `Log.Filter.admitsSpan`, `Log.Filter.admitsEvent`
-/

namespace Declass.Log

namespace Directive

/-- Whether a directive is about spans and what happens in them. -/
def isScoped (d : Directive) : Bool :=
  d.span.isSome || d.field.isSome

/-- Whether a directive is about notes for their own sake, wherever they happen. -/
def isPlain (d : Directive) : Bool :=
  d.span.isNone && d.field.all (·.value.isNone)

/-- Whether a directive is about an event for its own sake. -/
def concernsEvent (d : Directive) (event : Event) : Bool :=
  d.isPlain && d.matchesTarget event.target
    && d.field.all fun test => test.name == "message" || (event.fields.lookup test.name).isSome

/-- Whether a directive is about a span for its own sake. Its fields do not matter here. -/
def concernsSpan (d : Directive) (span : Span) : Bool :=
  d.isPlain && d.matchesTarget span.target

/-- Whether a directive names a span. -/
def namesSpan (d : Directive) (span : Span) : Bool :=
  d.isScoped && d.matchesTarget span.target && d.span.all (· == span.name)
    && d.field.all fun test => (span.fields.lookup test.name).isSome

/-- Whether the fields of a span have the values that a directive asks for. -/
def holdsIn (d : Directive) (span : Span) : Bool :=
  d.field.all fun test => test.value.all fun value =>
    (span.fields.lookup test.name).any value.accepts

/-- The name of the field that a directive asks for. -/
def fieldName (d : Directive) : String :=
  (d.field.map FieldTest.name).getD ""

/-- The more special of two directives: the one with the longer target, or else the one whose field
comes last, or else the later one. -/
def prefer (best next : Directive) : Directive :=
  if best.target.length < next.target.length then next
  else if next.target.length < best.target.length then best
  else if best.fieldName ≤ next.fieldName then next
  else best

end Directive

/-- A list of directives. -/
structure Filter where
  directives : List Directive
  deriving DecidableEq, Repr

namespace Filter

/-- Read a filter. -/
def parse (text : String) : Filter :=
  match (text.splitOn ",").filterMap Directive.parse? with
  | [] => ⟨[{ level := some .error }]⟩
  | directives => ⟨directives⟩

/-- The most detailed level that the filter could show. A directive that asks for the value of a
field has to see all spans. -/
def ceiling (filter : Filter) : Option Level :=
  if filter.directives.any fun d => d.field.any (·.value.isSome) then
    some .trace
  else
    filter.directives.foldl
      (fun most d => if (most.map Level.rank).getD 0 < (d.level.map Level.rank).getD 0
        then d.level else most)
      none

/-- The level down to which the most special of some directives shows notes. -/
def decide? : List Directive → Option Level
  | [] => none
  | d :: ds => (ds.foldl Directive.prefer d).level

/-- Of directives about the same, the last. -/
def keepLast : List Directive → List Directive
  | [] => []
  | d :: ds => if ds.any (·.subject == d.subject) then keepLast ds else d :: keepLast ds

/-- The directives that name a span. -/
def naming (filter : Filter) (span : Span) : List Directive :=
  (keepLast filter.directives).filter (·.namesSpan span)

/-- Whether notes of a level are shown because they happen inside one of the spans `visible`. -/
def unlocks (filter : Filter) (visible : List Span) (level : Level) : Bool :=
  visible.any fun span =>
    (filter.naming span).any fun d => d.holdsIn span && level.within d.level

/-- Whether an event is shown inside the spans `visible`. -/
def admitsEvent (filter : Filter) (visible : List Span) (event : Event) : Bool :=
  filter.unlocks visible event.level
    || event.level.within (decide? (filter.directives.filter (·.concernsEvent event)))

/-- Whether a span is shown inside the spans `visible`. -/
def admitsSpan (filter : Filter) (visible : List Span) (span : Span) : Bool :=
  span.level.within filter.ceiling
    && (!(filter.naming span).isEmpty
      || filter.unlocks visible span.level
      || span.level.within (decide? (filter.directives.filter (·.concernsSpan span))))

/-- Those of some nested spans, outermost first, that are shown. -/
def visible (filter : Filter) (spans : List Span) : List Span :=
  spans.foldl
    (fun visible span => if filter.admitsSpan visible span then visible ++ [span] else visible) []

end Filter

end Declass.Log
