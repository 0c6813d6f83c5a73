import PixQuery.Meaning.Codec
import PixQuery.Plan.Basic

/-!
# Plans as documents

A plan is an object of its sort keys, its groups of items and its groups of filters. Sort keys,
members and filters are written as they are in meanings.
-/

namespace PixQuery

open Json

/-- An item about names as a document. -/
def ElementItem.json (i : ElementItem) : Json :=
  .object [("exclude", .bool i.exclude), ("union", .array (i.union.map ElementValue.json))]

/-- Read an item about names. -/
def ElementItem.ofJson? (j : Json) : Option ElementItem := do
  let ms ← j.members?
  let exclude ← required bool? ms "exclude"
  let union ← required (arrayOf? ElementValue.ofJson?) ms "union"
  return ⟨exclude, union⟩

/-- A group of items as a document. -/
def ElementGroup.json (g : ElementGroup) : Json :=
  .object [("kind", .text g.kind.name), ("items", .array (g.items.map ElementItem.json))]

/-- Read a group of items. -/
def ElementGroup.ofJson? (j : Json) : Option ElementGroup := do
  let ms ← j.members?
  let kind ← required ElementKind.ofJson? ms "kind"
  let items ← required (arrayOf? ElementItem.ofJson?) ms "items"
  return ⟨kind, items⟩

/-- A group of filters as a document. -/
def FilterGroup.json (g : FilterGroup) : Json :=
  .object [("exclude", .bool g.exclude), ("union", .array (g.union.map Filter.json))]

/-- Read a group of filters. -/
def FilterGroup.ofJson? (j : Json) : Option FilterGroup := do
  let ms ← j.members?
  let exclude ← required bool? ms "exclude"
  let union ← required (arrayOf? Filter.ofJson?) ms "union"
  return ⟨exclude, union⟩

namespace Plan

/-- The plan as a document. -/
def json (p : Plan) : Json :=
  .object
    [("sorts", .array (p.sorts.map SortItem.json)),
      ("elements", .array (p.elements.map ElementGroup.json)),
      ("filters", .array (p.filters.map FilterGroup.json))]

/-- Read a plan. -/
def ofJson? (j : Json) : Option Plan := do
  let ms ← j.members?
  let sorts ← required (arrayOf? SortItem.ofJson?) ms "sorts"
  let elements ← required (arrayOf? ElementGroup.ofJson?) ms "elements"
  let filters ← required (arrayOf? FilterGroup.ofJson?) ms "filters"
  return ⟨sorts, elements, filters⟩

end Plan

end PixQuery
