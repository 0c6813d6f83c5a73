import PixQuery.Meaning.Filtering
import PixQuery.Query.Lowering
import PixQuery.Report

/-!
# Understanding a query

Each item of a query is understood on its own, in four ways: it sorts, it filters by fields, it
names metadata, or it is free text. What its phrases are is settled first (`classify`); an item does
not mix them. An item that cannot be understood gives one error and adds nothing to the meaning.

In the program `analyze` calls `item` of the `Analyzer` for each item, which takes the tree and the
collector along; here `analyzeItem` says what an item adds.
-/

namespace PixQuery

open Query (Path Value Predicate Phrase Relation Family Mark Item)

/-- The year that dates without a year are in: the one that the options set, or else the year of the
clock (`current_year`). -/
def CompilerOptions.year (o : CompilerOptions) (clock : Int) : Int := o.currentYear.getD clock

namespace Analysis

/-! ## Phrases -/

/-- What a phrase is. -/
inductive Subject where
  | sort
  | field (field : Field)
  | elementField (kind : Kind)
  | text (value : String) (exact : Bool)
  | name
  /-- A tag with a relation to others. -/
  | sequence
  deriving Repr, DecidableEq

namespace Subject

/-- Whether the phrase is about a field. -/
def isField : Subject → Bool
  | field _ | elementField _ => true
  | sort | text .. | name | sequence => false

/-- Whether the phrase is free text. -/
def isText : Subject → Bool
  | text .. => true
  | sort | field _ | elementField _ | name | sequence => false

/-- The kind of the names that a phrase takes as values. -/
def elementKind? : Subject → Option Kind
  | elementField k => some k
  | sort | field _ | text .. | name | sequence => none

/-- The member that free text is. -/
def textValue? : Subject → Option ElementValue
  | text value exact => some (.text value exact)
  | sort | field _ | elementField _ | name | sequence => none

end Subject

/-- Whether the phrase has a binary relation. -/
def isBinary (phrase : Phrase) : Bool :=
  match phrase.relation with
  | some (.binary ..) => true
  | some (.unary ..) | none => false

/-- Why a word with a relation is no field: it may be one with the other source mark. -/
def unknownFieldCause (word : String) (source : Bool) : SemanticCause :=
  if (AliasEntry.find? Field.names word !source).isSome ||
      (AliasEntry.find? Kind.names word !source).isSome then
    if source then .sourceMarkNotAllowed word else .sourceMarkRequired word
  else .unknownField word

/-- What a bare word at the front of a phrase says the phrase is, if it says anything. -/
def classifyWord (phrase : Phrase) (source : Bool) (word : String) :
    Understood (Option Subject) :=
  if !source && sortFieldName.isTyped word false then .ok (some .sort)
  else
    let kind? := if isBinary phrase then AliasEntry.find? Kind.names word source else none
    match kind?, AliasEntry.find? Field.names word source with
    | some kind, _ => .ok (some (.elementField kind))
    | none, some field => .ok (some (.field field))
    | none, none =>
      if isBinary phrase then .error ⟨unknownFieldCause word source, phrase.subject.range⟩
      else .ok none

/-- The bare word that is the whole subject of a phrase. -/
def subjectWord? (phrase : Phrase) : Option String :=
  phrase.subject.single?.bind fun p => if p.kind = .word then some p.value else none

/-- What a phrase is when no bare word says so. -/
def classifyName (phrase : Phrase) (source : Bool) : Understood Subject :=
  if phrase.relation.isSome then
    if !source && phrase.subject.parts.all fun p => !p.kind.isText then .ok .sequence
    else .error ⟨.elementTakesNoValue phrase.subject.joined, phrase.range⟩
  else
    match phrase.subject.single? with
    | some part =>
      if part.kind.isText then .ok (.text part.value (part.kind == .doubleQuotes)) else .ok .name
    | none => .ok .name

/-- What a phrase is, in an item with or without the source mark. -/
def classify (source : Bool) (phrase : Phrase) : Understood Subject := do
  let said ← match subjectWord? phrase with
    | some word => classifyWord phrase source word
    | none => pure none
  match said with
  | some subject => return subject
  | none => classifyName phrase source

/-! ## Sorting -/

/-- The key and direction of a value of a sort list. -/
def sortItem (v : Value) : Understood SortItem :=
  let written := if v.source then "^" ++ v.path.joined else v.path.joined
  let key? := v.path.single?.bind fun p =>
    if p.kind.isText then none else AliasEntry.find? OrderKey.names p.value v.source
  match key? with
  | some key => .ok ⟨key, v.direction.getD .ascending⟩
  | none => .error ⟨.sortItemInvalid written (AliasEntry.allNames OrderKey.names), v.range⟩

/-- The items of a sort list, with a warning for each key that is there already. -/
def sortItems (present : List OrderKey) :
    List Value → List SemanticFault × Understood (List SortItem)
  | [] => ([], .ok [])
  | v :: vs =>
    match sortItem v with
    | .error fault => ([], .error fault)
    | .ok item =>
      if present.contains item.key then
        let written := if v.source then "^" ++ v.path.joined else v.path.joined
        let (warnings, items) := sortItems present vs
        (⟨.sortItemRepeated written, v.range⟩ :: warnings, items)
      else
        let (warnings, items) := sortItems (present ++ [item.key]) vs
        (warnings, items.map (item :: ·))

/-- The items that a sort phrase adds to those present (`sort`). -/
def sorts (present : List OrderKey) (phrase : Phrase) :
    List SemanticFault × Understood (List SortItem) :=
  match phrase.relation with
  | some (.binary .equal (.values values) _) => sortItems present values
  | some (.binary _ _ range) => ([], .error ⟨.sortNeedsList, range⟩)
  | some (.unary ..) | none => ([], .error ⟨.sortNeedsValue, phrase.range⟩)

/-! ## Items -/

/-- What an item adds to the meaning of a query. -/
inductive Contribution where
  | sorts (items : List SortItem)
  | element (clause : ElementClause)
  | filter (clause : FilterClause)
  | nothing
  deriving Repr, DecidableEq

/-- The meaning with what an item adds. -/
def Contribution.addTo (m : Meaning) : Contribution → Meaning
  | sorts items => { m with sorts := m.sorts ++ items }
  | element clause => { m with elements := m.elements ++ [clause] }
  | filter clause => { m with filters := m.filters ++ [clause] }
  | nothing => m

/-- The kind that a mark stands for. -/
def markKind : Mark → Kind
  | .author => .author
  | .topic => .topic
  | .tag => .tag

/-- The entities that a phrase behind a mark means. Only tags have relations. -/
def markedPhrase (lookup : Lookup) (bounds : RangeBounds) (kind : Kind) (phrase : Phrase) :
    Understood (List Entity) :=
  match phrase.relation.filter fun _ => kind != .tag with
  | some relation => .error ⟨.elementRelation kind.name relation.spelling, relation.range⟩
  | none =>
    if phrase.subject.parts.any fun p => p.kind.isText then
      .error ⟨.prefixNotAllowed phrase.subject.joined, phrase.range⟩
    else if phrase.relation.isSome then Sequence.members lookup bounds phrase
    else resolve lookup kind phrase.subject

/-- The clause of an item with a mark (`prefixed`). -/
def markedItem (lookup : Lookup) (bounds : RangeBounds) (item : Item) (mark : Mark) :
    Understood ElementClause :=
  if item.source then .error ⟨.sourceMarkNotAllowed mark.spelling, item.range⟩
  else do
    let kind := markKind mark
    let groups ← item.element.phrases.mapM (markedPhrase lookup bounds kind)
    return ⟨.of kind, item.exclude, unionOf groups, item.range⟩

/-- The names that a field of metadata has as values. -/
def elementFieldNames (kind : Kind) (phrase : Phrase) : Understood (List Path) :=
  match phrase.relation with
  | some (.binary family predicate range) =>
    if family ≠ .equal then .error ⟨.filterRelation kind.name family.spelling, range⟩
    else
      match predicate with
      | .values values =>
        values.mapM fun v =>
          if v.isBare then .ok v.path else .error ⟨.valuePrefixNotAllowed, v.range⟩
      | .collection paths => .ok paths
      | .range _ => .error ⟨.filterShape kind.name .range, range⟩
  | some (.unary ..) | none => .error ⟨.filterNeedsValue kind.name, phrase.range⟩

/-- What an item of filters adds (the first half of `fields`). Collections without values give no
filter. -/
def filterItem (options : CompilerOptions) (clock : Int) (item : Item)
    (fields : List (Field × Phrase)) : Understood Contribution := do
  let groups ← fields.mapM fun f =>
    Filtering.filters (options.year clock) options.rangeBounds f.1 f.2
  match groups.flatten with
  | [] => return .nothing
  | union => return .filter ⟨item.exclude, union, item.range⟩

/-- The clause of an item of fields of metadata, all of one kind (the second half of `fields`). -/
def elementFieldItem (lookup : Lookup) (item : Item) (kind : Kind) (kinds : List Kind) :
    Understood ElementClause :=
  if kinds.any fun k => k ≠ kind then .error ⟨.prefixStructure kind.name, item.range⟩
  else do
    let paths ← item.element.phrases.mapM (elementFieldNames kind)
    return ⟨.of kind, item.exclude, ← resolveAll lookup kind paths.flatten, item.range⟩

/-- What an item of fields adds (`fields`). -/
def fieldItem (lookup : Lookup) (options : CompilerOptions) (clock : Int) (item : Item)
    (subjects : List Subject) : Understood Contribution :=
  match subjects.filterMap Subject.elementKind? with
  | [] =>
    let fields := (subjects.zip item.element.phrases).filterMap fun s =>
      match s.1 with
      | .field f => some (f, s.2)
      | .sort | .elementField _ | .text .. | .name | .sequence => none
    filterItem options clock item fields
  | kind :: kinds =>
    if kinds.length + 1 < subjects.length then .error ⟨.fieldsAndElementsMixed, item.range⟩
    else do return .element (← elementFieldItem lookup item kind kinds)

/-- The clause of an item of free text. -/
def textItem (item : Item) (subjects : List Subject) : Understood ElementClause :=
  if item.source then .error ⟨.prefixStructure "^", item.range⟩
  else .ok ⟨.text, item.exclude, subjects.filterMap Subject.textValue?, item.range⟩

/-- The entities that a phrase means beside one with a relation. -/
def relatedPhrase (lookup : Lookup) (bounds : RangeBounds) (s : Subject × Phrase) :
    Understood (List Entity) :=
  if s.1 = .sequence then Sequence.members lookup bounds s.2
  else resolve lookup .tag s.2.subject

/-- The clause of an item of names. -/
def nameItem (lookup : Lookup) (bounds : RangeBounds) (item : Item) (subjects : List Subject) :
    Understood ElementClause := do
  let phrases := item.element.phrases
  if subjects.contains .sequence then
    let groups ← (subjects.zip phrases).mapM (relatedPhrase lookup bounds)
    return ⟨.of .tag, item.exclude, unionOf groups, item.range⟩
  else if item.source then
    let union ← resolveAll lookup .sourceTag (phrases.map Phrase.subject)
    return ⟨.of .sourceTag, item.exclude, union, item.range⟩
  else
    let (kind, union) ← resolveBare lookup (phrases.map Phrase.subject)
    return ⟨.of kind, item.exclude, union, item.range⟩

/-- What an item without a mark adds that does not sort: fields, free text or names, not mixed. -/
def plainItem (lookup : Lookup) (options : CompilerOptions) (clock : Int) (item : Item)
    (subjects : List Subject) : Understood Contribution :=
  if subjects.any Subject.isField then
    if subjects.all Subject.isField then fieldItem lookup options clock item subjects
    else .error ⟨.fieldsAndElementsMixed, item.range⟩
  else if subjects.any Subject.isText then
    if subjects.all Subject.isText then do return .element (← textItem item subjects)
    else .error ⟨.fieldsAndElementsMixed, item.range⟩
  else do return .element (← nameItem lookup options.rangeBounds item subjects)

/-- What an item that sorts adds to the items present. It stands alone. -/
def sortingItem (present : List OrderKey) (item : Item) :
    List SemanticFault × Understood Contribution :=
  match item.element.phrases with
  | [phrase] =>
    if item.exclude || item.source then ([], .error ⟨.sortNotAlone, item.range⟩)
    else
      let (warnings, items) := sorts present phrase
      (warnings, items.map .sorts)
  | _ => ([], .error ⟨.sortNotAlone, item.range⟩)

/-- What an item adds: warnings, and a contribution or a fault (`item`). Sort keys may be present
already. -/
def analyzeItem (lookup : Lookup) (options : CompilerOptions) (clock : Int)
    (present : List OrderKey) (item : Item) :
    List SemanticFault × Understood Contribution :=
  match item.element.mark with
  | some mark =>
    ([], (markedItem lookup options.rangeBounds item mark).map .element)
  | none =>
    match item.element.phrases.mapM (classify item.source) with
    | .error fault => ([], .error fault)
    | .ok subjects =>
      if subjects.contains .sort then sortingItem present item
      else ([], plainItem lookup options clock item subjects)

/-! ## Queries -/

/-- The meaning of some items so far, and what was found in them. -/
structure Progress where
  meaning : Meaning
  findings : Findings SemanticFault

/-- Go on with the node of an item. -/
def addItem (lookup : Lookup) (options : CompilerOptions) (clock : Int) (p : Progress)
    (node : Tree) : Progress :=
  match Query.readItem node with
  | .error fault => { p with findings := p.findings.fail fault }
  | .ok item =>
    let (warnings, outcome) :=
      analyzeItem lookup options clock (p.meaning.sorts.map SortItem.key) item
    let findings := warnings.foldl Findings.warn p.findings
    match outcome with
    | .error fault => ⟨p.meaning, findings.fail fault⟩
    | .ok contribution => ⟨contribution.addTo p.meaning, findings⟩

end Analysis

/-- The meaning of a parsed query, where the clock is in the year `clock`. -/
def analyze (lookup : Lookup) (options : CompilerOptions) (clock : Int) (root : Tree) :
    Report Meaning SemanticFault :=
  match Query.itemNodes root with
  | .error fault => (Findings.mk [] [fault]).finish none
  | .ok nodes =>
    let p := nodes.foldl (Analysis.addItem lookup options clock) ⟨.empty, .empty⟩
    p.findings.finish (some p.meaning)

end PixQuery
