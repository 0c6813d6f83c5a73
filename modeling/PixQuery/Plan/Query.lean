import PixQuery.Field.Names
import PixQuery.Plan.Basic
import PixQuery.Text.Lowercase
import PixQuery.Token.Quoted

/-!
# Plans as queries

`Plan.query` writes a plan as the text of a query that means the same: the sort keys, the items
about names, and the filters, with spaces between them. Tags and topics are written behind the names
of their ancestors and source tags behind their site. Strings are put between quotes wherever they
would not be read as one bare word.

In the program this is `to_query_text`.
-/

namespace PixQuery

/-! ## Sort keys -/

/-- A sort key as it is typed. -/
def SortItem.query (s : SortItem) : String :=
  match s.direction with
  | .ascending => s.key.displayName
  | .descending => "-" ++ s.key.displayName

/-- The item that sorts (`sorts`). -/
def sortsQuery (sorts : List SortItem) : String :=
  "order:" ++ ",".intercalate (sorts.map SortItem.query)

/-! ## Names -/

/-- A name as it is typed (`name`). -/
def typedName (name : String) : String := quotedIfNeeded '\x60' name

/-- The names that lead to an entity, its own name last. -/
def Entity.path : Entity → List String
  | sourceTag s => [s.site, s.name]
  | tag t => t.address ++ [t.name]
  | topic t => t.address ++ [t.name]
  | author a => [a.name]

/-- The mark before names of a kind. -/
def ElementKind.mark : ElementKind → String
  | text => ""
  | of .tag => "$"
  | of .topic => "#"
  | of .author => "@"
  | of .sourceTag => "^"

/-- Free text between quotes, or the path of an entity. -/
def ElementValue.query : ElementValue → String
  | text value exact => quoted (if exact then '\x22' else '\x27') value
  | entity e => ".".intercalate (e.path.map typedName)

/-- The mark of exclusion. -/
def exclusion (exclude : Bool) : String := if exclude then "-" else ""

/-- An item about names of a kind (`element_item`). -/
def ElementItem.query (kind : ElementKind) (i : ElementItem) : String :=
  exclusion i.exclude ++ kind.mark ++ "|".intercalate (i.union.map ElementValue.query)

/-! ## Filters -/

/-- The first name of a field that needs no source mark, so that fields with and without the mark
may stand in one item (`field_name`). -/
def Field.plainName (f : Field) : String :=
  let names := (Field.names.find? fun e => e.key = f).map AliasEntry.names
  match (names.getD []).find? fun a => !a.source with
  | some a => a.name
  | none => f.displayName

/-- A value of a field (`value`). What may hold a pattern is put between backticks, which make it
none. -/
def FilterValue.query (field : Field) : FilterValue → String
  | text s => if field.type = .patternString then quoted '\x60' s else quotedIfNeeded '\x60' s
  | number n => quotedIfNeeded '\x27' (number n).shown
  | size n => quotedIfNeeded '\x27' (size n).shown
  | date d => quotedIfNeeded '\x27' (date d).shown

/-- One value alone, or a collection (`values`). -/
def oneOrCollection : List String → String
  | [value] => value
  | values => "\x7b" ++ ", ".intercalate values ++ "\x7d"

/-- The bounds of a range behind the name of its field. -/
def boundsQuery (field : Field) : Option Bound → Option Bound → String
  | some b, some e =>
    ":" ++ (if b.inclusive then "[" else "(") ++ b.value.query field ++ "," ++
      e.value.query field ++ (if e.inclusive then "]" else ")")
  | some b, none => (if b.inclusive then ">=" else ">") ++ b.value.query field
  | none, some e => (if e.inclusive then "<=" else "<") ++ e.value.query field
  | none, none => ""

/-- A filter (`filter`). Patterns of digits stand behind a colon, and patterns of text behind a
tilde. -/
def Filter.query : Filter → String
  | equal field values =>
    field.plainName ++ ":" ++ oneOrCollection (values.map (FilterValue.query field))
  | similar field patterns =>
    field.plainName ++ (if field.type.isMatchable then "~" else ":") ++
      oneOrCollection (patterns.map (quotedIfNeeded '\x27'))
  | range field lower upper => field.plainName ++ boundsQuery field lower upper
  | flag field => field.plainName
  | composition field value =>
    field.plainName ++ ":\x7b" ++
      ", ".intercalate (value.shownNames.map fun n => String.ofList (Text.lower n.toList)) ++ "\x7d"

/-- A group of filters (`filter_group`). -/
def FilterGroup.query (g : FilterGroup) : String :=
  exclusion g.exclude ++ "|".intercalate (g.union.map Filter.query)

/-! ## Plans -/

namespace Plan

/-- The items of a query that means the plan. -/
def queryItems (p : Plan) : List String :=
  (if p.sorts.isEmpty then [] else [sortsQuery p.sorts]) ++
    (p.elements.flatMap fun g => g.items.map (ElementItem.query g.kind)) ++
    p.filters.map FilterGroup.query

/-- A query that means the plan (`to_query_text`). -/
def query (p : Plan) : String := " ".intercalate p.queryItems

end Plan

end PixQuery
