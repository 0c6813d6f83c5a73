import PixQuery.Metadata.Entity

/-!
# Looking metadata up

A query is understood with the help of a lookup, which answers with entities to names, beginnings of
names, identifiers and parents. It does not change while a query is compiled.

In the program this is the interface `MetadataLookup`.
-/

namespace PixQuery

/-- A part of a path of names. -/
structure NamePart where
  name : String
  /-- Only the very same name is meant. -/
  exact : Bool
  /-- Asterisks and question marks stand for other characters. -/
  pattern : Bool
  deriving Repr, DecidableEq, Inhabited

/-- What answers questions about metadata (`MetadataLookup`). -/
structure Lookup where
  /-- The entities of a kind that a path of names means: its last part is the name, and the parts
  before it are of ancestors, or of the site of a source tag. -/
  byName : Kind → List NamePart → List Entity
  /-- The entities of a kind that a name being typed may become, behind a path of names. -/
  byPrefix : Kind → List NamePart → String → List Entity
  /-- The entity of a kind with an identifier. -/
  byId : Kind → UInt64 → Option Entity
  /-- The children of a tag or topic, in their order. -/
  children : Kind → UInt64 → List Entity

/-- The lookup that knows nothing (`EmptyLookup`). -/
def Lookup.empty : Lookup where
  byName _ _ := []
  byPrefix _ _ _ := []
  byId _ _ := none
  children _ _ := []

end PixQuery
