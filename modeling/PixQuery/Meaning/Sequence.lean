import PixQuery.Meaning.Resolution
import PixQuery.Options.Basic

/-!
# Relations between tags

A tag may group others, its children, and a sequence group has them in an order. With a group `g`
and members `a`, `b`:

* `g:a` and `g:{a, b}` mean the members of `g` with these names;
* `g:a..b`, `g>a`, `g>=a`, `g<b` and `g<=b` mean the members of a sequence group from one place to
  another, where an open end goes on to the first or last member;
* `a~b` means the members between `a` and `b`, both among them;
* `a~+` and `a~-` mean `a` and all members behind it or before it.

A relation that no tag fulfils is at fault.

In the program these are the functions of `Sequences`, of which `members` is called.
-/

namespace PixQuery

open Query (Path Value Predicate Phrase Relation Family Direction)

namespace Sequence

/-- The word for what is related (`ITEM`). -/
def itemName : String := "tag"

/-- The flags of a tag (`flags`). -/
def flagsOf : Entity → TagFlags
  | .tag t => t.flags
  | .topic _ | .author _ | .sourceTag _ => .empty

/-- The parent of a tag (`parent`). -/
def parentOf? : Entity → Option UInt64
  | .tag t => t.parent
  | .topic _ | .author _ | .sourceTag _ => none

/-- The shape of a predicate (`shape`). -/
def shapeOf : Predicate → ValueShape
  | .values values => if 1 < values.length then .list else .value
  | .collection _ => .collection
  | .range _ => .range

/-- The one name that a relation relates to (`single`). -/
def singleName (values : List Value) : Understood Path :=
  match values with
  | [v] =>
    if !v.isBare then .error ⟨.valuePrefixNotAllowed, v.range⟩
    else if v.path.isAddress then .error ⟨.addressAsValue, v.path.range⟩
    else .ok v.path
  | vs => .error ⟨.elementShape itemName .list, (vs.head?.map Value.range).getD (.point 0)⟩

/-- The tags that a path means (`tags`). -/
def tagsOf (lookup : Lookup) (path : Path) : List Entity := lookup.byName .tag (nameParts path)

/-- The numbers of the tags that a path means (`ids`). -/
def idsOf (lookup : Lookup) (path : Path) : List UInt64 := (tagsOf lookup path).map Entity.id

/-- Add an entity unless one with its number is there. -/
def addNew (found : List Entity) (e : Entity) : List Entity :=
  if found.any fun o => o.id == e.id then found else found ++ [e]

/-- The members, by one of the names, of the groups that `subject` means. -/
def groupMembers (lookup : Lookup) (subject : Path) (names : List Path) : List Entity :=
  let wanted := names.flatMap (idsOf lookup)
  let groups := (tagsOf lookup subject).filter fun t => (flagsOf t).isGroup
  ((groups.flatMap fun g => lookup.children .tag g.id).filter fun c => wanted.contains c.id).foldl
    addNew []

/-- The place of the first member that a name means (`position`). -/
def placeOf (lookup : Lookup) (members : List Entity) (name : Path) : Understood Nat :=
  let ids := idsOf lookup name
  match members.findIdx? fun m => ids.contains m.id with
  | some n => .ok n
  | none => .error ⟨.unresolved itemName name.joined, name.range⟩

/-- An end of a stretch of a sequence: the name of a member, and whether it belongs to it. -/
structure End where
  name : Path
  included : Bool

/-- The members from one end of a stretch to the other (a round of `ordinal_range`). -/
def stretch (lookup : Lookup) (first last : Option End) (members : List Entity) :
    Understood (List Entity) := do
  let start ← match first with
    | some e => do
      let place ← placeOf lookup members e.name
      pure (if e.included then place else place + 1)
    | none => pure 0
  let stop ← match last with
    | some e => do
      let place ← placeOf lookup members e.name
      pure (if e.included then place + 1 else place)
    | none => pure members.length
  return (members.take stop).drop start

/-- The stretch of each sequence group that `subject` means, one behind the other
(`ordinal_range`). -/
def stretches (lookup : Lookup) (subject : Path) (first last : Option End) :
    Understood (List Entity) := do
  let groups := (tagsOf lookup subject).filter fun t => (flagsOf t).isSequenceGroup
  let found ← groups.mapM fun g => stretch lookup first last (lookup.children .tag g.id)
  return found.flatten

/-- The members of the sequence that a tag is in, and its place among them (a round of
`sequence_member`). -/
def sequenceOf? (lookup : Lookup) (tag : Entity) : Option (List Entity × Nat) := do
  let group ← lookup.byId .tag (← parentOf? tag)
  if (flagsOf group).isSequenceGroup then
    let members := lookup.children .tag group.id
    let place ← members.findIdx? fun m => m.id == tag.id
    return (members, place)
  else none

/-- The sequence of the first tag `subject` means that is in one (`sequence_member`). -/
def sequenceWith? (lookup : Lookup) (subject : Path) : Option (List Entity × Nat) :=
  (tagsOf lookup subject).findSome? (sequenceOf? lookup)

/-- The members between two, both among them, whichever comes first. -/
def between (lookup : Lookup) (subject other : Path) : Understood (List Entity) :=
  match sequenceWith? lookup subject with
  | none => .ok []
  | some (members, place) => do
    let otherPlace ← placeOf lookup members other
    return (members.take (max place otherPlace + 1)).drop (min place otherPlace)

/-- A member and all behind it or before it. -/
def onward (lookup : Lookup) (subject : Path) (direction : Direction) : List Entity :=
  match sequenceWith? lookup subject with
  | none => []
  | some (members, place) =>
    match direction with
    | .ascending => members.drop place
    | .descending => members.take (place + 1)

/-- The ends of the stretch that a comparison with a member leaves. -/
def comparisonEnds (family : Family) (member : Path) : Option End × Option End :=
  match family with
  | .gt => (some ⟨member, false⟩, none)
  | .gte => (some ⟨member, true⟩, none)
  | .lt => (none, some ⟨member, false⟩)
  | .lte | .equal | .similar => (none, some ⟨member, true⟩)

/-- The tags that a binary relation selects. -/
def selectBinary (lookup : Lookup) (bounds : RangeBounds) (subject : Path) (family : Family)
    (predicate : Predicate) (range : Span) : Understood (List Entity) :=
  let unsupported : Understood (List Entity) :=
    .error ⟨.elementShapeOfRelation itemName (shapeOf predicate) family.spelling, range⟩
  match predicate with
  | .values values =>
    match family with
    | .equal => do return groupMembers lookup subject [← singleName values]
    | .similar => do between lookup subject (← singleName values)
    | .gt | .gte | .lt | .lte => do
      let (first, last) := comparisonEnds family (← singleName values)
      stretches lookup subject first last
  | .collection paths =>
    match family with
    | .equal => .ok (groupMembers lookup subject paths)
    | .gt | .gte | .lt | .lte | .similar => unsupported
  | .range literal =>
    match family with
    | .equal =>
      let brackets := literal.brackets.getD ⟨bounds.includeBegin, bounds.includeEnd⟩
      stretches lookup subject (some ⟨literal.first, brackets.includeBegin⟩)
        (some ⟨literal.last, brackets.includeEnd⟩)
    | .gt | .gte | .lt | .lte | .similar => unsupported

/-- The tags that a phrase selects. -/
def select (lookup : Lookup) (bounds : RangeBounds) (phrase : Phrase) :
    Understood (List Entity) :=
  match phrase.relation with
  | none => .ok (tagsOf lookup phrase.subject)
  | some (.unary direction _) => .ok (onward lookup phrase.subject direction)
  | some (.binary family predicate range) =>
    selectBinary lookup bounds phrase.subject family predicate range

/-- The tags that a phrase selects, of which there has to be one. -/
def members (lookup : Lookup) (bounds : RangeBounds) (phrase : Phrase) :
    Understood (List Entity) := do
  let found ← select lookup bounds phrase
  if found.isEmpty then .error ⟨.unresolved itemName phrase.subject.joined, phrase.range⟩
  else return found

end Sequence

end PixQuery
