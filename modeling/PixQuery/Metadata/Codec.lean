import PixQuery.Metadata.Snapshot

/-!
# Metadata as documents

An entity is an object with its kind and what else it has. Other names, parents, flags and addresses
may be left out where they are read. An address that is empty is not written.
-/

namespace PixQuery

open Json

/-- Texts, none when left out. -/
def readTexts? (ms : List (String × Json)) (key : String) : Option (List String) :=
  defaulted (arrayOf? text?) [] ms key

/-- The key under which the flags of a node stand. -/
def flagsKey : FlagFamily → String
  | .tag => "flags"
  | .target | .tagme => "target"

/-- What is written of a node. -/
def Node.members {family : FlagFamily} (n : Node family) : List (String × Json) :=
  [("id", .ofNat n.id.toNat), ("name", .text n.name), ("other_names", .ofTexts n.otherNames),
    ("parent", .ofOption (fun p => .ofNat p.toNat) n.parent), (flagsKey family, n.flags.json)] ++
    if n.address.isEmpty then [] else [("address", .ofTexts n.address)]

/-- What is written of an author. -/
def Author.members (a : Author) : List (String × Json) :=
  [("id", .ofNat a.id.toNat), ("name", .text a.name), ("other_names", .ofTexts a.otherNames),
    ("target", a.target.json)]

/-- What is written of a source tag. -/
def SourceTag.members (s : SourceTag) : List (String × Json) :=
  [("id", .ofNat s.id.toNat), ("site", .text s.site), ("name", .text s.name),
    ("other_names", .ofTexts s.otherNames)]

/-- What is written of an entity, its kind apart. -/
def Entity.members : Entity → List (String × Json)
  | tag t => t.members
  | topic t => t.members
  | author a => a.members
  | sourceTag s => s.members

/-- The entity as a document. -/
def Entity.json (e : Entity) : Json := .object (("kind", .text e.kind.name) :: e.members)

/-- Read a node. -/
def Node.ofMembers? (family : FlagFamily) (ms : List (String × Json)) : Option (Node family) := do
  let id ← required word64? ms "id"
  let name ← required text? ms "name"
  let otherNames ← readTexts? ms "other_names"
  let parent ← optional word64? ms "parent"
  let flags ← defaulted Flags.ofJson? .empty ms (flagsKey family)
  let address ← readTexts? ms "address"
  return ⟨id, name, otherNames, parent, flags, address⟩

/-- Read an author. -/
def Author.ofMembers? (ms : List (String × Json)) : Option Author := do
  let id ← required word64? ms "id"
  let name ← required text? ms "name"
  let otherNames ← readTexts? ms "other_names"
  let target ← defaulted Flags.ofJson? .empty ms "target"
  return ⟨id, name, otherNames, target⟩

/-- Read a source tag. -/
def SourceTag.ofMembers? (ms : List (String × Json)) : Option SourceTag := do
  let id ← required word64? ms "id"
  let site ← required text? ms "site"
  let name ← required text? ms "name"
  let otherNames ← readTexts? ms "other_names"
  return ⟨id, site, name, otherNames⟩

/-- Read the name of a kind. -/
def Kind.ofJson? (j : Json) : Option Kind := j.text?.bind Kind.ofName?

/-- Read an entity. -/
def Entity.ofJson? (j : Json) : Option Entity := do
  let ms ← j.members?
  match ← required Kind.ofJson? ms "kind" with
  | .tag => (Node.ofMembers? .tag ms).map .tag
  | .topic => (Node.ofMembers? .target ms).map .topic
  | .author => (Author.ofMembers? ms).map .author
  | .sourceTag => (SourceTag.ofMembers? ms).map .sourceTag

/-- Read a snapshot; lists that are left out are empty (`from_json`). -/
def Snapshot.ofJson? (j : Json) : Option Snapshot := do
  let ms ← j.members?
  let list {α : Type} (read : List (String × Json) → Option α) (key : String) :=
    defaulted (arrayOf? fun j => j.members?.bind read) [] ms key
  let tags ← list (Node.ofMembers? .tag) "tags"
  let topics ← list (Node.ofMembers? .target) "topics"
  let authors ← list Author.ofMembers? "authors"
  let sourceTags ← list SourceTag.ofMembers? "source_tags"
  return ⟨tags, topics, authors, sourceTags⟩

end PixQuery
