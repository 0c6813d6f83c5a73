import PixQuery.Metadata.Matcher

/-!
# Metadata at one moment

A snapshot lists all tags, topics, authors and source tags, and `Snapshot.lookup` answers from it in
the order of these lists. A path means a tag or topic when its last part matches a name of it, and
the parts before match, in their order, some of its ancestors; ancestors may be left out between
them.

In the program this is `MetadataSnapshot`, which implements the lookup with `ancestors`,
`address_matches`, `addressed`, `select` and `children`.
-/

namespace PixQuery

/-- All metadata at one moment (`MetadataSnapshot`). -/
structure Snapshot where
  tags : List Tag
  topics : List Topic
  authors : List Author
  sourceTags : List SourceTag
  deriving Repr, DecidableEq, Inhabited

namespace Snapshot

variable {family : FlagFamily}

/-- The node with an identifier; of several the first. -/
def find? (nodes : List (Node family)) (id : UInt64) : Option (Node family) :=
  nodes.find? fun n => n.id == id

/-- At most `limit` nodes on the way from the node with the identifier `start` up to the root (the
loop of `ancestors`). -/
def climb (nodes : List (Node family)) : (limit : Nat) → (start : Option UInt64) →
    List (Node family)
  | 0, _ => []
  | n + 1, start =>
    match start.bind (find? nodes) with
    | none => []
    | some node => node :: climb nodes n node.parent

/-- The ancestors on the way up from `start`, the nearest first. A way that does not end is cut off
when it is as long as the list of nodes. -/
def ancestors (nodes : List (Node family)) (start : Option UInt64) : List (Node family) :=
  climb nodes nodes.length start

/-- Whether the matchers, read from the last on, match some of the nodes in their order (the loop of
`address_matches`). -/
def matchesInOrder : List (Node family) → List Matcher → Bool
  | _, [] => true
  | [], _ :: _ => false
  | node :: nodes, m :: ms =>
    if m.matchesNames node.name node.otherNames then matchesInOrder nodes ms
    else matchesInOrder nodes (m :: ms)

/-- Whether an address matches the ancestors of a node. -/
def addressMatches (nodes : List (Node family)) (address : List Matcher) (node : Node family) :
    Bool :=
  matchesInOrder (ancestors nodes node.parent) address.reverse

/-- The node with the names of its ancestors. -/
def addressed (nodes : List (Node family)) (node : Node family) : Node family :=
  { node with address := ((ancestors nodes node.parent).map Node.name).reverse }

/-- The nodes at an address whose names are `wanted` (`select` over a list of nodes). -/
def selectNodes (nodes : List (Node family)) (address : List Matcher)
    (wanted : String → List String → Bool) : List (Node family) :=
  ((nodes.filter fun n => wanted n.name n.otherNames).filter (addressMatches nodes address)).map
    (addressed nodes)

/-- The nodes with a parent (`children` of a list of nodes). -/
def childNodes (nodes : List (Node family)) (parent : UInt64) : List (Node family) :=
  (nodes.filter fun n => n.parent == some parent).map (addressed nodes)

/-- Whether the address of a source tag, if there is one, matches its site (the test of
`sources`). -/
def siteMatches (address : List Matcher) (s : SourceTag) : Bool :=
  match address with
  | [] => true
  | [m] => m.matchesOne s.site
  | _ :: _ :: _ => false

/-- The entities of a kind at an address whose names are `wanted`. Authors have no address. -/
def select (s : Snapshot) (kind : Kind) (address : List Matcher)
    (wanted : String → List String → Bool) : List Entity :=
  match kind with
  | .tag => (selectNodes s.tags address wanted).map .tag
  | .topic => (selectNodes s.topics address wanted).map .topic
  | .author =>
    if address.isEmpty then (s.authors.filter fun a => wanted a.name a.otherNames).map .author
    else []
  | .sourceTag =>
    (s.sourceTags.filter fun t => siteMatches address t && wanted t.name t.otherNames).map
      .sourceTag

/-- The entities that a path means (`resolve_by_name`). -/
def byName (s : Snapshot) (kind : Kind) (parts : List NamePart) : List Entity :=
  match parts.getLast? with
  | none => []
  | some last =>
    s.select kind (parts.dropLast.map Matcher.ofPart) (Matcher.ofPart last).matchesNames

/-- The entities with a name that holds a text, without regard to case (`resolve_by_prefix`). -/
def byPrefix (s : Snapshot) (kind : Kind) (address : List NamePart) (typed : String) :
    List Entity :=
  let needle := Text.lower typed.toList
  let found (name : String) : Bool := Text.occursIn needle (Text.lower name.toList)
  s.select kind (address.map Matcher.ofPart) fun name others => found name || others.any found

/-- The entity of a kind with an identifier; of several the first (`resolve_by_id`). -/
def byId (s : Snapshot) (kind : Kind) (id : UInt64) : Option Entity :=
  match kind with
  | .tag => (find? s.tags id).map fun t => .tag (addressed s.tags t)
  | .topic => (find? s.topics id).map fun t => .topic (addressed s.topics t)
  | .author => (s.authors.find? fun a => a.id == id).map .author
  | .sourceTag => (s.sourceTags.find? fun t => t.id == id).map .sourceTag

/-- The children of a tag or topic, in the order of the list. -/
def children (s : Snapshot) (kind : Kind) (parent : UInt64) : List Entity :=
  match kind with
  | .tag => (childNodes s.tags parent).map .tag
  | .topic => (childNodes s.topics parent).map .topic
  | .author | .sourceTag => []

/-- The lookup that answers from a snapshot. -/
def lookup (s : Snapshot) : Lookup := ⟨s.byName, s.byPrefix, s.byId, s.children⟩

end Snapshot

end PixQuery
