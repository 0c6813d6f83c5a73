import PixQuery.Json.Basic

/-!
# Fields of an image

A filter speaks of a field, and the type of the field says how values are read and which relations
there are. A query is sorted by keys, most of which are fields too.
-/

namespace PixQuery

/-- The fields that filters speak of (`FieldKey`). -/
inductive Field where
  | favorite
  | bookMember
  | id
  | score
  | partition
  | ordinal
  | createTime
  | updateTime
  | description
  | extension
  | filesize
  | sourceId
  | sourcePage
  | sourcePageName
  | sourceSite
  | sourceDescription
  | tagme
  deriving Repr, DecidableEq, Inhabited

/-- How the values of a field are read, and which relations it has. -/
inductive FieldType where
  /-- Present or not; there is no relation. -/
  | flag
  | number
  /-- A number, or a pattern that is compared with its digits. -/
  | patternNumber
  | size
  | date
  | dateTime
  | string
  /-- A pattern, unless it is written between backticks. -/
  | patternString
  /-- A set of flags. -/
  | composition
  deriving Repr, DecidableEq, Inhabited

namespace FieldType

/-- The name of the type. -/
def name : FieldType → String
  | flag => "flag"
  | number => "number"
  | patternNumber => "pattern-number"
  | size => "size"
  | date => "date"
  | dateTime => "datetime"
  | string => "string"
  | patternString => "pattern-string"
  | composition => "composition"

/-- Whether values are greater and less than others. -/
def isComparable : FieldType → Bool
  | number | patternNumber | size | date | dateTime => true
  | flag | string | patternString | composition => false

/-- Whether values can be similar to others. -/
def isMatchable : FieldType → Bool
  | patternString => true
  | flag | number | patternNumber | size | date | dateTime | string | composition => false

end FieldType

namespace Field

/-- All fields. -/
def all : List Field :=
  [favorite, bookMember, id, score, partition, ordinal, createTime, updateTime, description,
    extension, filesize, sourceId, sourcePage, sourcePageName, sourceSite, sourceDescription, tagme]

/-- The type of a field (`field_type`). -/
def type : Field → FieldType
  | favorite | bookMember => .flag
  | id | sourceId | sourcePage => .patternNumber
  | score => .number
  | partition => .date
  | ordinal | createTime | updateTime => .dateTime
  | description | sourceDescription => .patternString
  | extension | sourcePageName | sourceSite => .string
  | filesize => .size
  | tagme => .composition

/-- The name of a field in documents. -/
def key : Field → String
  | favorite => "FAVORITE"
  | bookMember => "BOOK_MEMBER"
  | id => "ID"
  | score => "SCORE"
  | partition => "PARTITION"
  | ordinal => "ORDINAL"
  | createTime => "CREATE_TIME"
  | updateTime => "UPDATE_TIME"
  | description => "DESCRIPTION"
  | extension => "EXTENSION"
  | filesize => "FILESIZE"
  | sourceId => "SOURCE_ID"
  | sourcePage => "SOURCE_PAGE"
  | sourcePageName => "SOURCE_PAGE_NAME"
  | sourceSite => "SOURCE_SITE"
  | sourceDescription => "SOURCE_DESCRIPTION"
  | tagme => "TAGME"

/-- The field as a document. -/
def json (f : Field) : Json := .text f.key

/-- Read a field. -/
def ofJson? (j : Json) : Option Field := j.text?.bind fun s => all.find? fun f => f.key == s

end Field

/-- What images are sorted by. -/
inductive OrderKey where
  | id
  | score
  | ordinal
  | partition
  | createTime
  | updateTime
  | sourceId
  | sourceSite
  deriving Repr, DecidableEq, Inhabited

namespace OrderKey

/-- All keys. -/
def all : List OrderKey :=
  [id, score, ordinal, partition, createTime, updateTime, sourceId, sourceSite]

/-- The name of a key in documents. -/
def key : OrderKey → String
  | id => "ID"
  | score => "SCORE"
  | ordinal => "ORDINAL"
  | partition => "PARTITION"
  | createTime => "CREATE_TIME"
  | updateTime => "UPDATE_TIME"
  | sourceId => "SOURCE_ID"
  | sourceSite => "SOURCE_SITE"

/-- The key as a document. -/
def json (k : OrderKey) : Json := .text k.key

/-- Read a key. -/
def ofJson? (j : Json) : Option OrderKey := j.text?.bind fun s => all.find? fun k => k.key == s

end OrderKey

end PixQuery
