import PixQuery.Meaning.Basic
import PixQuery.Metadata.Lookup
import PixQuery.Value.Cast

/-!
# Which entities a name means

A path of names means the entities that the lookup finds under it. There has to be one at least, and
just one where the name is exact or means an author. A name without a mark means tags if all names
beside it do, else topics, else authors.

In the program these are `resolve`, `resolve_all` and `resolve_bare` of the `Analyzer`.
-/

namespace PixQuery

open Query (Path Part)

/-- A path as the lookup reads it: a string between quotes is exact, and a bare word may be a
pattern. -/
def nameParts (path : Path) : List NamePart :=
  path.parts.map fun p =>
    ⟨p.value, p.kind.isExact, p.kind == .word && Value.isPattern p.value⟩

/-- Whether a path of this kind has to mean one entity alone (`cardinality`). -/
def meansOne (kind : Kind) (parts : List NamePart) : Bool :=
  match parts.getLast? with
  | some last => !last.pattern && (last.exact || kind == .author)
  | none => kind == .author

/-- How many parts a path of a kind has at most: authors have no address, and source tags a site
(`max_parts` in `resolve`). -/
def maxParts? : Kind → Option Nat
  | .author => some 1
  | .sourceTag => some 2
  | .tag | .topic => none

/-- The entities of a kind that a path means. -/
def resolve (lookup : Lookup) (kind : Kind) (path : Path) : Understood (List Entity) :=
  if (maxParts? kind).any fun n => n < path.parts.length then
    .error ⟨.addressAsValue, path.range⟩
  else
    let parts := nameParts path
    let found := lookup.byName kind parts
    if found.isEmpty then .error ⟨.unresolved kind.name path.joined, path.range⟩
    else if meansOne kind parts && 1 < found.length then
      .error ⟨.ambiguous kind.name path.joined found.length, path.range⟩
    else .ok found

/-- Whether an entity of the same kind and number is a member already. -/
def isMember (union : List ElementValue) (e : Entity) : Bool :=
  union.any fun v =>
    match v with
    | .entity o => o.kind == e.kind && o.id == e.id
    | .text .. => false

/-- Add those entities that are not members yet (`push_unique`). -/
def addEntities (union : List ElementValue) (found : List Entity) : List ElementValue :=
  found.foldl (fun u e => if isMember u e then u else u ++ [.entity e]) union

/-- The members that all these groups of entities have together. -/
def unionOf (groups : List (List Entity)) : List ElementValue := groups.foldl addEntities []

/-- The members that some paths of a kind mean together. The first path that means nothing
decides. -/
def resolveAll (lookup : Lookup) (kind : Kind) (paths : List Path) :
    Understood (List ElementValue) :=
  (paths.mapM (resolve lookup kind)).map unionOf

/-- Whether a path means nothing, whatever its kind (`nowhere` in `resolve_bare`). -/
def isUnknown (lookup : Lookup) (path : Path) : Bool :=
  [Kind.tag, Kind.topic, Kind.author].all fun k => (lookup.byName k (nameParts path)).isEmpty

/-- The kind of some paths without a mark, and the members that they mean together. When no kind
fits all of them, a path that means nothing at all is at fault, or else the first that is no tag. -/
def resolveBare (lookup : Lookup) (paths : List Path) :
    Understood (Kind × List ElementValue) :=
  match resolveAll lookup .tag paths with
  | .ok union => .ok (.tag, union)
  | .error fault =>
    match resolveAll lookup .topic paths with
    | .ok union => .ok (.topic, union)
    | .error _ =>
      match resolveAll lookup .author paths with
      | .ok union => .ok (.author, union)
      | .error _ =>
        match paths.find? (isUnknown lookup) with
        | some path => .error ⟨.unresolved "tag, topic or author" path.joined, path.range⟩
        | none => .error fault

end PixQuery
