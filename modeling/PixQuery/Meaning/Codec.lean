import PixQuery.Meaning.Basic
import PixQuery.Metadata.Codec

/-!
# Meanings as documents

A meaning is an object of its sort keys, clauses about names and clauses about fields. A filter
carries its form under `type`, and so does a value of a field. Free text is told from an entity by
its members `value` and `exact`, which no entity has. What is not there, such as an open end of a
range, is left out.
-/

namespace PixQuery

open Json
open Query (Direction)

/-! ## Sort keys -/

/-- The short name of a direction. -/
def Query.Direction.name : Direction → String
  | .ascending => "asc"
  | .descending => "desc"

/-- Read the name of a direction. -/
def Query.Direction.ofJson? (j : Json) : Option Direction :=
  j.text?.bind fun s => [Direction.ascending, .descending].find? fun d => d.name == s

/-- A sort key and its direction as a document. -/
def SortItem.json (s : SortItem) : Json :=
  .object [("key", s.key.json), ("direction", .text s.direction.name)]

/-- Read a sort key and its direction. -/
def SortItem.ofJson? (j : Json) : Option SortItem := do
  let ms ← j.members?
  return ⟨← required OrderKey.ofJson? ms "key", ← required Direction.ofJson? ms "direction"⟩

/-! ## Elements -/

/-- Read the name of a kind of members. -/
def ElementKind.ofJson? (j : Json) : Option ElementKind := j.text?.bind ElementKind.ofName?

/-- Free text or an entity as a document. -/
def ElementValue.json : ElementValue → Json
  | text value exact => .object [("value", .text value), ("exact", .bool exact)]
  | entity e => e.json

/-- Read free text. -/
def ElementValue.textOfJson? (j : Json) : Option ElementValue := do
  let ms ← j.members?
  return .text (← required text? ms "value") (← required bool? ms "exact")

/-- Read free text, or else an entity. -/
def ElementValue.ofJson? (j : Json) : Option ElementValue :=
  (textOfJson? j).orElse fun _ => (Entity.ofJson? j).map .entity

/-- A clause about names as a document. -/
def ElementClause.json (c : ElementClause) : Json :=
  .object
    [("kind", .text c.kind.name), ("exclude", .bool c.exclude),
      ("union", .array (c.union.map ElementValue.json)), ("range", c.range.json)]

/-- Read a clause about names. -/
def ElementClause.ofJson? (j : Json) : Option ElementClause := do
  let ms ← j.members?
  let kind ← required ElementKind.ofJson? ms "kind"
  let exclude ← required bool? ms "exclude"
  let union ← required (arrayOf? ElementValue.ofJson?) ms "union"
  let range ← required Span.ofJson? ms "range"
  return ⟨kind, exclude, union, range⟩

/-! ## Filters -/

/-- A value of a field as a document. -/
def FilterValue.json : FilterValue → Json
  | number n => .object [("type", .text "number"), ("value", .whole n.toInt)]
  | size n => .object [("type", .text "size"), ("value", .ofNat n.toNat)]
  | date d => .object [("type", .text "date"), ("value", .text d.text)]
  | text s => .object [("type", .text "text"), ("value", .text s)]

/-- Read a value of a field. -/
def FilterValue.ofJson? (j : Json) : Option FilterValue := do
  let ms ← j.members?
  match ← required text? ms "type" with
  | "number" => (required int64? ms "value").map .number
  | "size" => (required word64? ms "value").map .size
  | "date" => (required (fun j => j.text?.bind Date.ofText?) ms "value").map .date
  | "text" => (required text? ms "value").map .text
  | _ => none

/-- An end of a range as a document. -/
def Bound.json (b : Bound) : Json :=
  .object [("value", b.value.json), ("inclusive", .bool b.inclusive)]

/-- Read an end of a range. -/
def Bound.ofJson? (j : Json) : Option Bound := do
  let ms ← j.members?
  return ⟨← required FilterValue.ofJson? ms "value", ← required bool? ms "inclusive"⟩

/-- An end of a range as a member, when there is one. -/
def Bound.member (key : String) (b : Option Bound) : List (String × Json) :=
  (b.map fun b => (key, b.json)).toList

/-- The name of the form of a filter. -/
def Filter.formName : Filter → String
  | equal .. => "equal"
  | similar .. => "match"
  | range .. => "range"
  | flag _ => "flag"
  | composition .. => "composition"

/-- What is written of a filter behind its form and its field. -/
def Filter.details : Filter → List (String × Json)
  | equal _ values => [("values", .array (values.map FilterValue.json))]
  | similar _ patterns => [("patterns", .ofTexts patterns)]
  | range _ lower upper => Bound.member "begin" lower ++ Bound.member "end" upper
  | flag _ => []
  | composition _ value => [("value", value.json)]

/-- A filter as a document. -/
def Filter.json (f : Filter) : Json :=
  .object (("type", .text f.formName) :: ("field", f.field.json) :: f.details)

/-- Read a filter. -/
def Filter.ofJson? (j : Json) : Option Filter := do
  let ms ← j.members?
  let field ← required Field.ofJson? ms "field"
  match ← required text? ms "type" with
  | "equal" => (required (arrayOf? FilterValue.ofJson?) ms "values").map (.equal field)
  | "match" => (required (arrayOf? text?) ms "patterns").map (.similar field)
  | "range" =>
    let lower ← optional Bound.ofJson? ms "begin"
    let upper ← optional Bound.ofJson? ms "end"
    return .range field lower upper
  | "flag" => return .flag field
  | "composition" => (required Flags.ofJson? ms "value").map (.composition field)
  | _ => none

/-- A clause about fields as a document. -/
def FilterClause.json (c : FilterClause) : Json :=
  .object
    [("exclude", .bool c.exclude), ("union", .array (c.union.map Filter.json)),
      ("range", c.range.json)]

/-- Read a clause about fields. -/
def FilterClause.ofJson? (j : Json) : Option FilterClause := do
  let ms ← j.members?
  let exclude ← required bool? ms "exclude"
  let union ← required (arrayOf? Filter.ofJson?) ms "union"
  let range ← required Span.ofJson? ms "range"
  return ⟨exclude, union, range⟩

/-! ## Meanings -/

namespace Meaning

/-- The meaning as a document. -/
def json (m : Meaning) : Json :=
  .object
    [("sorts", .array (m.sorts.map SortItem.json)),
      ("elements", .array (m.elements.map ElementClause.json)),
      ("filters", .array (m.filters.map FilterClause.json))]

/-- Read a meaning. -/
def ofJson? (j : Json) : Option Meaning := do
  let ms ← j.members?
  let sorts ← required (arrayOf? SortItem.ofJson?) ms "sorts"
  let elements ← required (arrayOf? ElementClause.ofJson?) ms "elements"
  let filters ← required (arrayOf? FilterClause.ofJson?) ms "filters"
  return ⟨sorts, elements, filters⟩

end Meaning

end PixQuery
