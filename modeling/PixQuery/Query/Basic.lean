import PixQuery.Token.Basic

/-!
# Queries as trees of meaning

A query is a list of items that all have to hold. An item is an element, excluded or not, of a
source or not. An element joins phrases, and a phrase is a path with or without a relation: a binary
one to values, a collection or a range, or a unary one in a direction.

In the program an item is a `SequenceItem`, a phrase an `Sfp`, a path a `StrPath` and a part of it a
`StrPart`.
-/

namespace PixQuery.Query

/-- A direction in an order or a sequence. -/
inductive Direction where
  | ascending
  | descending
  deriving Repr, DecidableEq, Inhabited

/-- A string in a path (`StrPart`). -/
structure Part where
  value : String
  kind : StringKind
  range : Span
  deriving Repr, DecidableEq, Inhabited

/-- A path such as `a.b.c`: its parts, of which there is at least one (`StrPath`). -/
structure Path where
  first : Part
  others : List Part
  deriving Repr, DecidableEq, Inhabited

namespace Path

/-- The parts, from left to right. -/
def parts (p : Path) : List Part := p.first :: p.others

/-- The last part. -/
def last (p : Path) : Part := p.others.getLast?.getD p.first

/-- The parts before the last. -/
def leading (p : Path) : List Part := p.parts.dropLast

/-- The stretch of text that the path covers. -/
def range (p : Path) : Span := p.first.range.cover p.last.range

/-- The only part of a path that has just one. -/
def single? (p : Path) : Option Part :=
  match p.others with
  | [] => some p.first
  | _ :: _ => none

/-- The values of the parts with points between them. -/
def joined (p : Path) : String := ".".intercalate (p.parts.map Part.value)

/-- Whether the path has more than one part. -/
def isAddress (p : Path) : Bool := !p.others.isEmpty

end Path

/-- The symbol of a binary relation. -/
inductive Family where
  | equal
  | gt
  | gte
  | lt
  | lte
  | similar
  deriving Repr, DecidableEq, Inhabited

namespace Family

/-- How the symbol is written (`as_str`). -/
def spelling : Family → String
  | equal => ":"
  | gt => ">"
  | gte => ">="
  | lt => "<"
  | lte => "<="
  | similar => "~"

/-- Whether the relation compares. -/
def isComparison : Family → Bool
  | gt | gte | lt | lte => true
  | equal | similar => false

end Family

/-- A value with what is written before it: a direction and a source mark. -/
structure Value where
  direction : Option Direction
  source : Bool
  path : Path
  range : Span
  deriving Repr, DecidableEq, Inhabited

/-- Whether nothing is written before the value (`is_empty` of its `ValuePrefix`). -/
def Value.isBare (v : Value) : Bool := v.direction.isNone && !v.source

/-- Which ends of a range belong to it, when its brackets say so. -/
structure Brackets where
  includeBegin : Bool
  includeEnd : Bool
  deriving Repr, DecidableEq, Inhabited

/-- A range `a..b`, or `[a,b]` with brackets of either shape at each end. -/
structure RangeLiteral where
  first : Path
  last : Path
  brackets : Option Brackets
  deriving Repr, DecidableEq, Inhabited

/-- What a binary relation relates its subject to. -/
inductive Predicate where
  | values (values : List Value)
  | collection (paths : List Path)
  | range (literal : RangeLiteral)
  deriving Repr, DecidableEq, Inhabited

/-- What follows the subject of a phrase (`Relation` and `Unary`). -/
inductive Relation where
  | binary (family : Family) (predicate : Predicate) (range : Span)
  /-- The subject and all that lies behind it (`~+`) or before it (`~-`). -/
  | unary (direction : Direction) (range : Span)
  deriving Repr, DecidableEq, Inhabited

namespace Relation

/-- How the relation's symbol is written (`relation_symbol`). -/
def spelling : Relation → String
  | binary family _ _ => family.spelling
  | unary .ascending _ => "~+"
  | unary .descending _ => "~-"

/-- The stretch of text from the symbol to the end of the predicate (`relation_range`). -/
def range : Relation → Span
  | binary _ _ range => range
  | unary _ range => range

end Relation

/-- A path with or without a relation (`Sfp`). -/
structure Phrase where
  subject : Path
  relation : Option Relation
  range : Span
  deriving Repr, DecidableEq, Inhabited

/-- The mark before an element that says what its names are (`ElementPrefix`). -/
inductive Mark where
  | author
  | topic
  | tag
  deriving Repr, DecidableEq, Inhabited

/-- How the mark is written. -/
def Mark.spelling : Mark → String
  | author => "@"
  | topic => "#"
  | tag => "$"

/-- Phrases joined by bars, with or without a mark. -/
structure Element where
  mark : Option Mark
  phrases : List Phrase
  range : Span
  deriving Repr, DecidableEq, Inhabited

/-- An element that has to hold, or must not when it is excluded (`SequenceItem`). -/
structure Item where
  exclude : Bool
  source : Bool
  element : Element
  range : Span
  deriving Repr, DecidableEq, Inhabited

end PixQuery.Query
