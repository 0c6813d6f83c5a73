import PixQuery.Metadata.Snapshot

/-!
# What a snapshot answers with

A snapshot answers with its entities, where tags and topics carry the names of their ancestors.
Lookups by name and by a beginning go through the entities of a kind in their order, and keep those
at the address whose names are wanted; this is one filter for all kinds.

Results:
* `Snapshot.select_eq`: a lookup by names is a filter of the entities of a kind.
* `Snapshot.returns_iff`: what can be an answer are the entities, and nothing else.
-/

namespace PixQuery

namespace Text

/-- Nothing stands everywhere. -/
theorem occursIn_nil : ∀ cs : List Char, occursIn [] cs = true
  | [] => rfl
  | _ :: _ => rfl

end Text

namespace Snapshot

variable {family : FlagFamily} {s : Snapshot} {kind : Kind} {e : Entity}

/-- The entities of a kind in the order in which they are stored, tags and topics with the names of
their ancestors. -/
def entities (s : Snapshot) : Kind → List Entity
  | .tag => s.tags.map fun t => .tag (addressed s.tags t)
  | .topic => s.topics.map fun t => .topic (addressed s.topics t)
  | .author => s.authors.map .author
  | .sourceTag => s.sourceTags.map .sourceTag

/-- Whether an entity is at an address: a tag or topic below ancestors, a source tag at a site. -/
def isAt (s : Snapshot) (address : List Matcher) : Entity → Bool
  | .tag t => addressMatches s.tags address t
  | .topic t => addressMatches s.topics address t
  | .author _ => address.isEmpty
  | .sourceTag t => siteMatches address t

theorem kind_of_mem_entities (h : e ∈ s.entities kind) : e.kind = kind := by
  cases kind <;> obtain ⟨_, _, rfl⟩ := List.mem_map.mp h <;> rfl

theorem selectNodes_map {α : Type} (nodes : List (Node family)) (address : List Matcher)
    (wanted : String → List String → Bool) (f : Node family → α) :
    (selectNodes nodes address wanted).map f =
      (nodes.filter fun n => addressMatches nodes address n && wanted n.name n.otherNames).map
        fun n => f (addressed nodes n) := by
  rw [selectNodes, List.filter_filter, List.map_map]
  rfl

/-- **A lookup by names is a filter** of the entities of a kind. The names of the ancestors that an
entity carries make no difference to it. -/
theorem select_eq (s : Snapshot) (kind : Kind) (address : List Matcher)
    (wanted : String → List String → Bool) : s.select kind address wanted =
      (s.entities kind).filter fun e => s.isAt address e && wanted e.name e.otherNames := by
  cases kind with
  | tag => rw [select, selectNodes_map, entities, List.filter_map]; rfl
  | topic => rw [select, selectNodes_map, entities, List.filter_map]; rfl
  | author =>
    cases address with
    | nil => rw [entities, List.filter_map]; rfl
    | cons m ms => simp [select, entities, isAt]
  | sourceTag => rw [select, entities, List.filter_map]; rfl

theorem mem_select_iff {address : List Matcher} {wanted : String → List String → Bool} :
    e ∈ s.select kind address wanted ↔
      e ∈ s.entities kind ∧ s.isAt address e = true ∧ wanted e.name e.otherNames = true := by
  rw [select_eq, List.mem_filter, Bool.and_eq_true]

/-- Everything is at the empty address. -/
theorem isAt_nil (s : Snapshot) (e : Entity) : s.isAt [] e = true := by
  cases e <;> simp [isAt, addressMatches, matchesInOrder, siteMatches]

theorem byName_concat (s : Snapshot) (kind : Kind) (address : List NamePart) (last : NamePart) :
    s.byName kind (address ++ [last]) =
      s.select kind (address.map Matcher.ofPart) (Matcher.ofPart last).matchesNames := by
  rw [byName, List.getLast?_concat, List.dropLast_concat]

/-! ## Answers -/

/-- Whether a snapshot answers with an entity to some question. -/
inductive Returns (s : Snapshot) (e : Entity) : Prop
  | byName {kind : Kind} {parts : List NamePart} (h : e ∈ s.byName kind parts)
  | byPrefix {kind : Kind} {address : List NamePart} {typed : String}
    (h : e ∈ s.byPrefix kind address typed)
  | byId {kind : Kind} {id : UInt64} (h : s.byId kind id = some e)
  | children {kind : Kind} {parent : UInt64} (h : e ∈ s.children kind parent)

theorem mem_entities_of_byName {parts : List NamePart} (h : e ∈ s.byName kind parts) :
    e ∈ s.entities kind := by
  unfold Snapshot.byName at h
  split at h
  · cases h
  · exact (mem_select_iff.mp h).1

theorem mem_entities_of_byId {id : UInt64} (h : s.byId kind id = some e) :
    e ∈ s.entities kind := by
  cases kind <;> obtain ⟨x, hx, rfl⟩ := Option.map_eq_some_iff.mp h <;>
    exact List.mem_map.mpr ⟨x, List.mem_of_find?_eq_some hx, rfl⟩

theorem mem_entities_of_children {parent : UInt64} (h : e ∈ s.children kind parent) :
    e ∈ s.entities kind := by
  have hnode : ∀ {family : FlagFamily} {nodes : List (Node family)} {f : Node family → Entity},
      e ∈ (childNodes nodes parent).map f → e ∈ nodes.map fun n => f (addressed nodes n) := by
    intro family nodes f he
    obtain ⟨_, hchild, rfl⟩ := List.mem_map.mp he
    obtain ⟨n, hn, rfl⟩ := List.mem_map.mp hchild
    exact List.mem_map.mpr ⟨n, (List.mem_filter.mp hn).1, rfl⟩
  cases kind with
  | tag => exact hnode h
  | topic => exact hnode h
  | author => cases h
  | sourceTag => cases h

/-- **What can be an answer are the entities**: every answer is one, and each is an answer, to the
question what a name may become of which nothing has been typed. -/
theorem returns_iff : s.Returns e ↔ e ∈ s.entities e.kind := by
  constructor
  · intro h
    have hmem : ∃ kind, e ∈ s.entities kind := by
      cases h with
      | byName h => exact ⟨_, mem_entities_of_byName h⟩
      | byPrefix h => exact ⟨_, (mem_select_iff.mp h).1⟩
      | byId h => exact ⟨_, mem_entities_of_byId h⟩
      | children h => exact ⟨_, mem_entities_of_children h⟩
    obtain ⟨kind, hmem⟩ := hmem
    rwa [kind_of_mem_entities hmem]
  · intro h
    refine @Returns.byPrefix s e e.kind [] "" ?_
    exact mem_select_iff.mpr ⟨h, isAt_nil s e, Bool.or_eq_true_iff.mpr (.inl (Text.occursIn_nil _))⟩

end Snapshot

end PixQuery
