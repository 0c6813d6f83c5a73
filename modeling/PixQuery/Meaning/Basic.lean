import PixQuery.Fault.Semantic
import PixQuery.Field.Names
import PixQuery.Query.Basic
import PixQuery.Value.Date

/-!
# What a query means

The meaning of a query is what its images are sorted by, the clauses about names that have to hold,
and the clauses about fields that have to hold. Names stand for the entities that were found under
them, and values are of the types of their fields.

In the program a meaning is a `SemanticTree`.
-/

namespace PixQuery

open Query (Direction)

/-- A key to sort by, and the direction. -/
structure SortItem where
  key : OrderKey
  direction : Direction
  deriving Repr, DecidableEq, Inhabited

/-! ## Elements -/

/-- What the members of a clause about names are. -/
inductive ElementKind where
  | text
  | of (kind : Kind)
  deriving Repr, DecidableEq, Inhabited

namespace ElementKind

/-- The name of the kind. -/
def name : ElementKind → String
  | text => "text"
  | of kind => kind.name

/-- The kind with a name. -/
def ofName? (name : String) : Option ElementKind :=
  if name = "text" then some text else (Kind.ofName? name).map .of

end ElementKind

/-- A member of a clause about names. -/
inductive ElementValue where
  /-- Free text; exact when it is written between double quotes. -/
  | text (value : String) (exact : Bool)
  | entity (entity : Entity)
  deriving Repr, DecidableEq, Inhabited

namespace ElementValue

/-- What the member is called. -/
def label : ElementValue → String
  | text value _ => value
  | entity e => e.name

/-- The entity, when the member is one. -/
def entity? : ElementValue → Option Entity
  | text .. => none
  | entity e => some e

end ElementValue

/-- A clause about names: an image has one of the members, or none of them when it is excluded. -/
structure ElementClause where
  kind : ElementKind
  exclude : Bool
  union : List ElementValue
  range : Span
  deriving Repr, DecidableEq, Inhabited

/-! ## Filters -/

/-- A value of a field. -/
inductive FilterValue where
  | number (value : Int64)
  | size (bytes : UInt64)
  | date (day : Date)
  | text (value : String)
  deriving Repr, DecidableEq, Inhabited

/-- The value as it is shown. -/
def FilterValue.shown : FilterValue → String
  | number n => toString n.toInt
  | size n => toString n.toNat
  | date d => d.text
  | text s => s

/-- An end of a range of values. -/
structure Bound where
  value : FilterValue
  inclusive : Bool
  deriving Repr, DecidableEq, Inhabited

/-- A condition on a field. -/
inductive Filter where
  /-- The field has one of the values. -/
  | equal (field : Field) (values : List FilterValue)
  /-- The field matches one of the patterns. -/
  | similar (field : Field) (patterns : List String)
  /-- The field lies between the bounds. -/
  | range (field : Field) (lower upper : Option Bound)
  /-- The field is set at all. -/
  | flag (field : Field)
  /-- The field holds the flags. -/
  | composition (field : Field) (value : Tagme)
  deriving Repr, DecidableEq, Inhabited

/-- The field that a filter speaks of. -/
def Filter.field : Filter → Field
  | equal f _ | similar f _ | range f _ _ | flag f | composition f _ => f

/-- A clause about fields: one of the filters holds, or none of them when it is excluded. -/
structure FilterClause where
  exclude : Bool
  union : List Filter
  range : Span
  deriving Repr, DecidableEq, Inhabited

/-! ## Meanings -/

/-- What a query means (`SemanticTree`). -/
structure Meaning where
  sorts : List SortItem
  elements : List ElementClause
  filters : List FilterClause
  deriving Repr, DecidableEq, Inhabited

namespace Meaning

/-- The meaning of a query without items. -/
def empty : Meaning := ⟨[], [], []⟩

/-- Whether nothing is asked for. -/
def isEmpty (m : Meaning) : Bool := m.sorts.isEmpty && m.elements.isEmpty && m.filters.isEmpty

end Meaning

/-- What is understood, or why it cannot be (`Scoped`). -/
abbrev Understood := Except SemanticFault

end PixQuery
