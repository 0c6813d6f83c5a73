import PixQuery.Flags

/-!
# Metadata entities

Images are described by tags, topics, authors and the tags of source sites. Tags and topics form
trees: each may name a parent, and carries the names of its ancestors once it has been looked up.
-/

namespace PixQuery

/-- The kinds of metadata (`MetaKind`). -/
inductive Kind where
  | tag
  | topic
  | author
  | sourceTag
  deriving Repr, DecidableEq, Inhabited

namespace Kind

/-- The name of the kind. -/
def name : Kind → String
  | tag => "tag"
  | topic => "topic"
  | author => "author"
  | sourceTag => "source-tag"

/-- All kinds, in their order. -/
def all : List Kind := [tag, topic, author, sourceTag]

/-- The kind with a name. -/
def ofName? (name : String) : Option Kind := all.find? fun k => k.name == name

/-- The place of the kind in the order of kinds. -/
def rank : Kind → Nat
  | tag => 0
  | topic => 1
  | author => 2
  | sourceTag => 3

end Kind

/-- A tag or a topic. -/
structure Node (family : FlagFamily) where
  id : UInt64
  name : String
  otherNames : List String
  parent : Option UInt64
  flags : Flags family
  /-- The names of the ancestors, the root first. -/
  address : List String
  deriving Repr, DecidableEq, Inhabited

/-- A tag. -/
abbrev Tag := Node .tag

/-- A topic. -/
abbrev Topic := Node .target

/-- An author. -/
structure Author where
  id : UInt64
  name : String
  otherNames : List String
  target : Targets
  deriving Repr, DecidableEq, Inhabited

/-- A tag of a source site. -/
structure SourceTag where
  id : UInt64
  site : String
  name : String
  otherNames : List String
  deriving Repr, DecidableEq, Inhabited

/-- A tag, topic, author or source tag (`MetaEntity`). -/
inductive Entity where
  | tag (tag : Tag)
  | topic (topic : Topic)
  | author (author : Author)
  | sourceTag (sourceTag : SourceTag)
  deriving Repr, DecidableEq, Inhabited

namespace Entity

/-- The kind of the entity. -/
def kind : Entity → Kind
  | tag _ => .tag
  | topic _ => .topic
  | author _ => .author
  | sourceTag _ => .sourceTag

/-- The number of the entity among those of its kind. -/
def id : Entity → UInt64
  | tag t => t.id
  | topic t => t.id
  | author a => a.id
  | sourceTag s => s.id

/-- The name of the entity. -/
def name : Entity → String
  | tag t => t.name
  | topic t => t.name
  | author a => a.name
  | sourceTag s => s.name

/-- The other names of the entity. -/
def otherNames : Entity → List String
  | tag t => t.otherNames
  | topic t => t.otherNames
  | author a => a.otherNames
  | sourceTag s => s.otherNames

/-- The names of the ancestors of a tag or topic, the root first. -/
def address : Entity → List String
  | tag t => t.address
  | topic t => t.address
  | author _ | sourceTag _ => []

end Entity

end PixQuery
