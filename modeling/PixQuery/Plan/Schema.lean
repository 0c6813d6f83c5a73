import PixQuery.Field.Basic
import PixQuery.Json.Schema
import PixQuery.Metadata.Entity

/-!
# The schema of plans

The documents that other programs take for plans. Groups, unions and lists of values are never
empty. The schema says less than `Plan.ofJson?` reads: the type of a value, the names of flags and
the numbers of entities are not looked into.

In the program this is the document `PLAN_SCHEMA_STR`.
-/

namespace PixQuery

namespace Plan

/-- A list of texts. -/
def textsSchema : Schema := .array 0 .text

/-- A sort key and its direction. -/
def sortSchema : Schema :=
  .object true
    [("key", .word (OrderKey.all.map OrderKey.key)), ("direction", .word ["asc", "desc"])] []

/-- Free text. -/
def textSchema : Schema := .object true [("value", .text), ("exact", .boolean)] []

/-- An entity; it may have members of its own. -/
def entitySchema : Schema :=
  .object false
    [("kind", .word (Kind.all.map Kind.name)), ("id", .natural), ("name", .text)]
    [("other_names", textsSchema), ("parent", .oneOf [.integer, .null]), ("flags", .text),
      ("target", .text), ("site", .text), ("address", textsSchema)]

/-- An item about names. -/
def itemSchema : Schema :=
  .object true
    [("exclude", .boolean), ("union", .array 1 (.oneOf [textSchema, entitySchema]))] []

/-- A group of items of one kind. -/
def groupSchema : Schema :=
  .object true
    [("kind", .word ("text" :: Kind.all.map Kind.name)), ("items", .array 1 itemSchema)] []

/-- A value of a field. -/
def valueSchema : Schema :=
  .object true
    [("type", .word ["number", "size", "date", "text"]), ("value", .oneOf [.integer, .text])] []

/-- An end of a range. -/
def boundSchema : Schema := .object true [("value", valueSchema), ("inclusive", .boolean)] []

/-- A filter of a form, with what it has behind its field. -/
def formSchema (form : String) (required optional : List (String × Schema)) : Schema :=
  .object true
    (("type", .word [form]) :: ("field", .word (Field.all.map Field.key)) :: required) optional

/-- A filter. -/
def filterSchema : Schema :=
  .oneOf
    [formSchema "equal" [("values", .array 1 valueSchema)] [],
      formSchema "match" [("patterns", .array 1 .text)] [],
      formSchema "range" [] [("begin", boundSchema), ("end", boundSchema)],
      formSchema "flag" [] [],
      formSchema "composition" [("value", .text)] []]

/-- A group of filters. -/
def filterGroupSchema : Schema :=
  .object true [("exclude", .boolean), ("union", .array 1 filterSchema)] []

/-- A plan. -/
def schema : Schema :=
  .object true
    [("sorts", .array 0 sortSchema), ("elements", .array 0 groupSchema),
      ("filters", .array 0 filterGroupSchema)] []

end Plan

end PixQuery
