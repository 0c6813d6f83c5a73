import PixQuery.Flags
import PixQuery.Forecast.Place
import PixQuery.Options.Basic
import PixQuery.Text.Lowercase

/-!
# Choosing suggestions

Candidates are ranked by how well they match what is typed: the same name comes first, then names
that begin with it, then entities with another name that begins with it, then all others. Within a
rank they are in the order of their names, their kinds and their numbers. The order does not depend
on that in which a lookup answers.

In the program this is `forecast`, with `rank` and `keyword_suggestions`.
-/

namespace PixQuery

namespace Suggestion

/-- How well a suggestion matches what is typed, the best first. -/
def rank (typed : List Char) (s : Suggestion) : Nat :=
  let name := Text.lower s.name.toList
  if name = typed then 0
  else if typed.isPrefixOf name then 1
  else if s.otherNames.any fun n => typed.isPrefixOf (Text.lower n.toList) then 2
  else 3

/-- The order of words before entities, and of entities by kind and number. -/
def compareEntities : Option (Kind × UInt64) → Option (Kind × UInt64) → Ordering
  | none, none => .eq
  | none, some _ => .lt
  | some _, none => .gt
  | some (k, i), some (l, j) => (compare k.rank l.rank).then (compare i.toNat j.toNat)

/-- The order in which suggestions are given. -/
def order (typed : List Char) (s t : Suggestion) : Ordering :=
  (compare (s.rank typed) (t.rank typed)).then
    ((compareOfLessAndEq s.name t.name).then (compareEntities s.entity t.entity))

/-- The words that hold what is typed (`keyword_suggestions`). -/
def ofWords (typed : List Char) (words : List String) : List Suggestion :=
  (words.filter fun w => Text.occursIn typed (Text.lower w.toList)).map word

/-- Drop each suggestion that is the same as the one before it. -/
def withoutNeighbours : List Suggestion → List Suggestion
  | s :: t :: rest =>
    if s = t then withoutNeighbours (t :: rest) else s :: withoutNeighbours (t :: rest)
  | rest => rest

/-- The best candidates in their order, each once, and no more than the limit. -/
def best (typed : List Char) (limit : Option Nat) (candidates : List Suggestion) :
    List Suggestion :=
  let ranked := withoutNeighbours (candidates.mergeSort fun s t => (order typed s t).isLE)
  match limit with
  | some n => ranked.take n
  | none => ranked

end Suggestion

/-- The names that may stand in a context behind an address. -/
def ForecastContext.candidates (lookup : Lookup) (address : List NamePart) (typed : List Char) :
    ForecastContext → List Suggestion
  | bare =>
    [Kind.tag, .topic, .author].flatMap fun k =>
      (lookup.byPrefix k address (String.ofList typed)).map .ofEntity
  | metadata kind => (lookup.byPrefix kind address (String.ofList typed)).map .ofEntity
  | orderKey source =>
    Suggestion.ofWords typed
      ((OrderKey.names.flatMap AliasEntry.names).filterMap fun a =>
        if a.source = source then some a.name else none)
  | flagName _ =>
    Suggestion.ofWords typed
      ((Flags.baseNames .tagme).map fun n => String.ofList (Text.lower n.toList))

/-- The forecast for a cursor among tokens (`forecast`). There is none where no name is expected,
such as in free text. -/
def Forecast.of? (lookup : Lookup) (options : CompilerOptions) (tokens : List Token)
    (cursor : Nat) : Option Forecast := do
  let place ← Place.at? tokens cursor
  let context ← place.context?
  if context = .bare ∧ place.kind.isText then none
  else
    let typed := place.typed cursor
    let candidates := context.candidates lookup place.address typed
    return ⟨context, place.range, Suggestion.best typed options.forecastLimit candidates⟩

end PixQuery
