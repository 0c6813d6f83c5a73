import PixQuery.Diagnostic

/-!
# What can go wrong while a query is understood

A semantic fault is a cause together with the stretch of text it stands for. The codes of the causes
run from 3001 to 3028, in the order of the constructors of `SemanticCause`. A repeated sort item
is a warning; all others are errors.

In the program both are one type, `SemanticError`.
-/

namespace PixQuery

/-- The shape in which the value of a relation is written. -/
inductive ValueShape where
  | value
  | list
  | collection
  | range
  deriving Repr, DecidableEq

/-- The shape in words. -/
def ValueShape.text : ValueShape → String
  | value => "value"
  | list => "list"
  | collection => "collection"
  | range => "range"

/-- Why an item of a query means nothing. -/
inductive SemanticCause where
  | filterNeedsValue (field : String)
  | filterTakesNoValue (field : String)
  | filterShape (field : String) (shape : ValueShape)
  | filterShapeOfRelation (field : String) (shape : ValueShape) (relation : String)
  | filterRelation (field relation : String)
  | prefixStructure (mark : String)
  | prefixNotAllowed (name : String)
  | elementTakesNoValue (name : String)
  | elementShape (item : String) (shape : ValueShape)
  | elementShapeOfRelation (item : String) (shape : ValueShape) (relation : String)
  | elementRelation (item relation : String)
  | sortNeedsValue
  | sortNeedsList
  | sortItemInvalid (item : String) (expected : List String)
  | sortNotAlone
  | sortItemRepeated (item : String)
  | addressAsValue
  | patternInComparison
  | typeCast (value expected : String)
  | enumCast (value typeName : String) (expected : List String)
  | unsupportedStructure (production : String)
  | fieldsAndElementsMixed
  | sourceMarkNotAllowed (name : String)
  | sourceMarkRequired (name : String)
  | valuePrefixNotAllowed
  | unresolved (kind name : String)
  | ambiguous (kind name : String) (candidates : Nat)
  | unknownField (name : String)
  deriving Repr, DecidableEq

namespace SemanticCause

/-- The code of the cause. -/
def code : SemanticCause → Nat
  | filterNeedsValue .. => 3001
  | filterTakesNoValue .. => 3002
  | filterShape .. => 3003
  | filterShapeOfRelation .. => 3004
  | filterRelation .. => 3005
  | prefixStructure .. => 3006
  | prefixNotAllowed .. => 3007
  | elementTakesNoValue .. => 3008
  | elementShape .. => 3009
  | elementShapeOfRelation .. => 3010
  | elementRelation .. => 3011
  | sortNeedsValue => 3012
  | sortNeedsList => 3013
  | sortItemInvalid .. => 3014
  | sortNotAlone => 3015
  | sortItemRepeated .. => 3016
  | addressAsValue => 3017
  | patternInComparison => 3018
  | typeCast .. => 3019
  | enumCast .. => 3020
  | unsupportedStructure .. => 3021
  | fieldsAndElementsMixed => 3022
  | sourceMarkNotAllowed .. => 3023
  | sourceMarkRequired .. => 3024
  | valuePrefixNotAllowed => 3025
  | unresolved .. => 3026
  | ambiguous .. => 3027
  | unknownField .. => 3028

/-- The cause in words. -/
def message : SemanticCause → String
  | filterNeedsValue field => "filter " ++ field ++ ": relation and value are required"
  | filterTakesNoValue field => "filter " ++ field ++ ": relation and value are not allowed"
  | filterShape field shape => "filter " ++ field ++ ": " ++ shape.text ++ " is unsupported"
  | filterShapeOfRelation field shape relation =>
    "filter " ++ field ++ ": " ++ shape.text ++ " is unsupported with relation '" ++ relation ++ "'"
  | filterRelation field relation =>
    "filter " ++ field ++ ": relation '" ++ relation ++ "' is unsupported"
  | prefixStructure mark => "invalid element structure for prefix '" ++ mark ++ "'"
  | prefixNotAllowed name => name ++ ": element prefix is not allowed"
  | elementTakesNoValue name => "element " ++ name ++ ": relation and value are not allowed"
  | elementShape item shape => "element " ++ item ++ ": " ++ shape.text ++ " is unsupported"
  | elementShapeOfRelation item shape relation =>
    "element " ++ item ++ ": " ++ shape.text ++ " is unsupported with relation '" ++ relation ++ "'"
  | elementRelation item relation =>
    "element " ++ item ++ ": relation '" ++ relation ++ "' is unsupported"
  | sortNeedsValue => "sort: relation and value are required"
  | sortNeedsList => "sort: value must be a sort list"
  | sortItemInvalid item expected =>
    "sort: item '" ++ item ++ "' is invalid, expected one of: " ++ ", ".intercalate expected
  | sortNotAlone =>
    "sort must stand alone: it cannot be excluded, source-qualified or joined with '|'"
  | sortItemRepeated item => "sort: item '" ++ item ++ "' is duplicated"
  | addressAsValue => "value cannot be an address"
  | patternInComparison => "a comparison or range value cannot be a pattern"
  | typeCast value expected => "'" ++ value ++ "' cannot be cast to " ++ expected
  | enumCast value typeName expected =>
    "'" ++ value ++ "' is not a " ++ typeName ++ ", expected one of: " ++ ", ".intercalate expected
  | unsupportedStructure production => "unsupported structure " ++ production
  | fieldsAndElementsMixed => "fields and elements cannot be mixed in one item"
  | sourceMarkNotAllowed name => name ++ " cannot have the source flag"
  | sourceMarkRequired name => name ++ " must have the source flag"
  | valuePrefixNotAllowed => "a value prefix is only allowed in sort lists"
  | unresolved kind name => kind ++ " '" ++ name ++ "' not found"
  | ambiguous kind name candidates =>
    kind ++ " '" ++ name ++ "' is ambiguous: " ++ toString candidates ++ " candidates match"
  | unknownField name => "unknown field '" ++ name ++ "'"

/-- The names and counts the cause speaks of. -/
def info : SemanticCause → Option Json
  | filterNeedsValue field | filterTakesNoValue field | filterRelation field _ =>
    some (.object [("field", .text field)])
  | filterShape field shape =>
    some (.object [("field", .text field), ("shape", .text shape.text)])
  | filterShapeOfRelation field shape relation =>
    some (.object
      [("field", .text field), ("shape", .text shape.text), ("relation", .text relation)])
  | elementShape item shape =>
    some (.object [("item", .text item), ("shape", .text shape.text)])
  | elementShapeOfRelation item shape relation =>
    some (.object [("item", .text item), ("shape", .text shape.text), ("relation", .text relation)])
  | elementRelation item relation =>
    some (.object [("item", .text item), ("relation", .text relation)])
  | sortItemInvalid item expected =>
    some (.object [("item", .text item), ("expected", .ofTexts expected)])
  | sortItemRepeated item => some (.object [("item", .text item)])
  | typeCast value expected =>
    some (.object [("value", .text value), ("expected", .text expected)])
  | enumCast value typeName expected =>
    some (.object
      [("value", .text value), ("type", .text typeName), ("expected", .ofTexts expected)])
  | unresolved kind name => some (.object [("kind", .text kind), ("name", .text name)])
  | ambiguous kind name candidates =>
    some (.object
      [("kind", .text kind), ("name", .text name), ("candidates", .ofNat candidates)])
  | unknownField name | prefixNotAllowed name | elementTakesNoValue name
  | sourceMarkNotAllowed name | sourceMarkRequired name => some (.object [("name", .text name)])
  | prefixStructure _ | sortNeedsValue | sortNeedsList | sortNotAlone | addressAsValue
  | patternInComparison | unsupportedStructure _ | fieldsAndElementsMixed
  | valuePrefixNotAllowed => none

end SemanticCause

/-- A cause and the stretch of text it stands for. -/
structure SemanticFault where
  cause : SemanticCause
  range : Span
  deriving Repr, DecidableEq

/-- The fault as it is shown. -/
def SemanticFault.diagnostic (f : SemanticFault) : Diagnostic :=
  ⟨f.cause.code, f.cause.message, some f.range, f.cause.info⟩

end PixQuery
