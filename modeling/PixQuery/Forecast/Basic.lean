import PixQuery.Diagnostic
import PixQuery.Field.Basic
import PixQuery.Metadata.Entity

/-!
# Forecasts

A forecast says what may stand where a cursor is: which kind of name is expected there, which
stretch of text a choice replaces, and the names to choose from.

In the program these are `ForecastContext`, `Suggestion` and `Forecast`.
-/

namespace PixQuery

/-- Which kind of name is expected at the cursor. -/
inductive ForecastContext where
  /-- A name without a mark: of a tag, a topic or an author. -/
  | bare
  /-- A name of one kind of metadata. -/
  | metadata (kind : Kind)
  /-- A sort key, with or without the source mark. -/
  | orderKey (source : Bool)
  /-- A name of a flag of the field. -/
  | flagName (field : Field)
  deriving Repr, DecidableEq, Inhabited

/-- A name to choose: a word of the language, or the name of an entity. -/
structure Suggestion where
  name : String
  otherNames : List String
  /-- The kind and number of the entity, when the name is of one. -/
  entity : Option (Kind × UInt64)
  deriving Repr, DecidableEq, Inhabited

namespace Suggestion

/-- A word of the language. -/
def word (name : String) : Suggestion := ⟨name, [], none⟩

/-- The name of an entity. -/
def ofEntity (e : Entity) : Suggestion := ⟨e.name, e.otherNames, some (e.kind, e.id)⟩

end Suggestion

/-- What may stand where a cursor is. -/
structure Forecast where
  context : ForecastContext
  /-- The stretch of text that a choice replaces. -/
  span : Span
  suggestions : List Suggestion
  deriving Repr, DecidableEq, Inhabited

/-! ## Documents -/

/-- The context as a document. -/
def ForecastContext.json : ForecastContext → Json
  | bare => .object [("type", .text "bare")]
  | metadata kind => .object [("type", .text "meta"), ("kind", .text kind.name)]
  | orderKey source => .object [("type", .text "order-key"), ("source", .bool source)]
  | flagName field => .object [("type", .text "enum"), ("field", field.json)]

/-- The suggestion as a document; what it does not have is left out. -/
def Suggestion.json (s : Suggestion) : Json :=
  .object
    (("name", .text s.name) ::
      (if s.otherNames.isEmpty then [] else [("other_names", .ofTexts s.otherNames)]) ++
      match s.entity with
      | some (kind, id) => [("kind", .text kind.name), ("id", .ofNat id.toNat)]
      | none => [])

/-- The forecast as a document. -/
def Forecast.json (f : Forecast) : Json :=
  .object
    [("context", f.context.json), ("span", f.span.json),
      ("suggestions", .array (f.suggestions.map Suggestion.json))]

end PixQuery
