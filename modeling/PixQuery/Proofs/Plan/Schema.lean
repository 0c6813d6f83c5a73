import PixQuery.Plan.Codec
import PixQuery.Plan.Schema
import PixQuery.Proofs.Json.Schema
import PixQuery.Proofs.Plan.Recompiling

/-!
# Plans and their schema

A plan is written with all that the schema of plans asks for, so whether its document has the form
of the schema comes down to the lists that must not be empty. Of those, a compiled plan keeps all
but one: an item about names is left without members when the query asks for a field of metadata
with an empty collection. A filter with an empty collection is left out instead.

Results:
* `Plan.accepts_json_iff`: the document of a plan has the form of the schema if no such list is
  empty, and only then.
* `Compiler.conforms_of_compile`: which lists of a compiled plan are not empty, and when its
  document has the form of the schema.
-/

namespace PixQuery

open Schema (accepts_object_iff accepts_object_cons_iff accepts_array_map_iff
  accepts_array_map_one_iff accepts_oneOf_iff accepts_oneOf_left accepts_oneOf_right)

/-! ## Plans without empty lists -/

/-- No list in the filter is empty. -/
def Filter.IsFull : Filter → Prop
  | equal _ values => values ≠ []
  | similar _ patterns => patterns ≠ []
  | range .. | flag _ | composition .. => True

/-- No list in the plan is empty that must not be. -/
structure Plan.IsFull (p : Plan) : Prop where
  items : ∀ g ∈ p.elements, g.items ≠ []
  members : ∀ g ∈ p.elements, ∀ i ∈ g.items, i.union ≠ []
  filters : ∀ g ∈ p.filters, g.union ≠ [] ∧ ∀ f ∈ g.union, f.IsFull

namespace Plan

/-! ## Documents of sort keys and members -/

theorem accepts_sort (s : SortItem) : sortSchema.accepts s.json = true := by
  obtain ⟨key, direction⟩ := s
  have hkey : ∃ k ∈ OrderKey.all, k.key = key.key := ⟨key, by cases key <;> decide, rfl⟩
  rw [sortSchema, SortItem.json, accepts_object_iff (by simp)]
  cases direction <;> simpa [OrderKey.json, Query.Direction.name] using hkey

theorem accepts_texts (xs : List String) : textsSchema.accepts (.ofTexts xs) = true := by
  rw [textsSchema, Json.ofTexts, accepts_array_map_iff]
  simp

theorem accepts_parent (parent : Option UInt64) : (Schema.oneOf [.integer, .null]).accepts
    (.ofOption (fun p => .ofNat p.toNat) parent) = true := by
  cases parent with
  | none =>
    refine accepts_oneOf_right ?_ ?_
    · simp [Json.ofOption]
    · simp [Json.ofOption]
  | some p =>
    refine accepts_oneOf_left ?_ ?_
    · simp [Json.ofOption]
    · simp [Json.ofOption, Json.ofNat]

theorem accepts_node {family : FlagFamily} (kind : Kind) (n : Node family) :
    entitySchema.accepts (.object (("kind", .text kind.name) :: n.members)) = true := by
  have hkind : ∃ k ∈ Kind.all, k.name = kind.name := ⟨kind, by cases kind <;> decide, rfl⟩
  cases family <;> cases haddress : n.address.isEmpty <;>
    simpa [entitySchema, accepts_object_iff, Node.members, haddress, flagsKey, accepts_parent,
      accepts_texts, Flags.json] using hkind

/-- **An entity is written as the schema says.** -/
theorem accepts_entity (e : Entity) : entitySchema.accepts e.json = true := by
  cases e with
  | tag t => exact accepts_node .tag t
  | topic t => exact accepts_node .topic t
  | author a =>
    have hkind : ∃ k ∈ Kind.all, k.name = Kind.author.name := ⟨.author, by decide, rfl⟩
    simpa [entitySchema, Entity.json, Entity.kind, accepts_object_iff, Entity.members,
      Author.members, accepts_texts, Flags.json] using hkind
  | sourceTag s =>
    have hkind : ∃ k ∈ Kind.all, k.name = Kind.sourceTag.name := ⟨.sourceTag, by decide, rfl⟩
    simpa [entitySchema, Entity.json, Entity.kind, accepts_object_iff, Entity.members,
      SourceTag.members, accepts_texts] using hkind

/-- Free text is no entity, and an entity is no free text. -/
theorem accepts_member (v : ElementValue) :
    (Schema.oneOf [textSchema, entitySchema]).accepts v.json = true := by
  cases v with
  | text value exact =>
    refine accepts_oneOf_left ?_ (Bool.eq_false_iff.mpr fun h => ?_)
    · simp [textSchema, ElementValue.json, accepts_object_iff]
    · simp [entitySchema, ElementValue.json, accepts_object_iff] at h
  | entity e =>
    refine accepts_oneOf_right (Bool.eq_false_iff.mpr fun h => ?_) (accepts_entity e)
    simp [textSchema, ElementValue.json, Entity.json, Schema.accepts, Schema.describes] at h

theorem accepts_item_iff (i : ElementItem) : itemSchema.accepts i.json = true ↔ i.union ≠ [] := by
  rw [itemSchema, ElementItem.json, accepts_object_iff (by simp)]
  simp [accepts_array_map_one_iff, accepts_member]

theorem accepts_group_iff (g : ElementGroup) : groupSchema.accepts g.json = true ↔
    g.items ≠ [] ∧ ∀ i ∈ g.items, i.union ≠ [] := by
  have hkind : g.kind.name = "text" ∨ ∃ k ∈ Kind.all, k.name = g.kind.name := by
    cases g.kind with
    | text => exact .inl rfl
    | of kind => exact .inr ⟨kind, by cases kind <;> decide, rfl⟩
  rw [groupSchema, ElementGroup.json, accepts_object_iff (by simp)]
  simp [accepts_array_map_one_iff, accepts_item_iff, hkind]

/-! ## Documents of filters -/

theorem accepts_literal (v : FilterValue) : valueSchema.accepts v.json = true := by
  have hwhole : ∀ i, (Schema.oneOf [.integer, .text]).accepts (.whole i) = true := fun i =>
    accepts_oneOf_left (by simp) (by simp)
  have htext : ∀ s, (Schema.oneOf [.integer, .text]).accepts (.text s) = true := fun s =>
    accepts_oneOf_right (by simp) (by simp)
  cases v <;>
    simp [valueSchema, FilterValue.json, accepts_object_iff, hwhole, htext, Json.ofNat]

theorem accepts_bound (b : Bound) : boundSchema.accepts b.json = true := by
  simp [boundSchema, Bound.json, accepts_object_iff, accepts_literal]

/-- A filter has a form if it is its own and fits the details. -/
theorem accepts_form_iff {f : Filter} {form : String} {required optional : List (String × Schema)}
    (htype : "type" ∉ (required ++ optional).map Prod.fst)
    (hfield : "field" ∉ (required ++ optional).map Prod.fst) :
    (formSchema form required optional).accepts f.json = true ↔
      f.formName = form ∧
        (Schema.object true required optional).accepts (.object f.details) = true := by
  have hdetails : "type" ∉ f.details.map Prod.fst ∧ "field" ∉ f.details.map Prod.fst := by
    cases f with
    | range field lower upper => cases lower <;> cases upper <;> simp [Filter.details, Bound.member]
    | equal field values => simp [Filter.details]
    | similar field patterns => simp [Filter.details]
    | flag field => simp [Filter.details]
    | composition field value => simp [Filter.details]
  have hkey : ∃ k ∈ Field.all, k.key = f.field.key := ⟨f.field, by cases f.field <;> decide, rfl⟩
  rw [formSchema, Filter.json, accepts_object_cons_iff (by simpa using hdetails.1)
    (by simpa using htype), accepts_object_cons_iff hdetails.2 hfield]
  simp [Field.json, hkey]

/-- **A filter is written as the schema says** if no list in it is empty, and only then. -/
theorem accepts_filter_iff (f : Filter) : filterSchema.accepts f.json = true ↔ f.IsFull := by
  rw [filterSchema, accepts_oneOf_iff]
  -- the forms that are not the filter's own are ruled out by their names
  cases f with
  | equal field values =>
    simp [List.countP_cons, accepts_form_iff, Filter.formName, Filter.details, Filter.IsFull,
      accepts_object_iff, accepts_array_map_one_iff, accepts_literal]
  | similar field patterns =>
    simp [List.countP_cons, accepts_form_iff, Filter.formName, Filter.details, Filter.IsFull,
      accepts_object_iff, accepts_array_map_one_iff, Json.ofTexts]
  | range field lower upper =>
    cases lower <;> cases upper <;>
      simp [accepts_form_iff, Filter.formName, Filter.details, Filter.IsFull, Bound.member,
        accepts_object_iff, accepts_bound]
  | flag field =>
    simp [accepts_form_iff, Filter.formName, Filter.details, Filter.IsFull, accepts_object_iff]
  | composition field value =>
    simp [accepts_form_iff, Filter.formName, Filter.details, Filter.IsFull, accepts_object_iff,
      Flags.json]

theorem accepts_filterGroup_iff (g : FilterGroup) : filterGroupSchema.accepts g.json = true ↔
    g.union ≠ [] ∧ ∀ f ∈ g.union, f.IsFull := by
  rw [filterGroupSchema, FilterGroup.json, accepts_object_iff (by simp)]
  simp [accepts_array_map_one_iff, accepts_filter_iff]

/-- **When the document of a plan has the form of the schema**: no list in the plan is empty that
must not be. -/
theorem accepts_json_iff (p : Plan) : schema.accepts p.json = true ↔ p.IsFull := by
  have hlists : schema.accepts p.json = true ↔
      (∀ g ∈ p.elements, g.items ≠ [] ∧ ∀ i ∈ g.items, i.union ≠ []) ∧
      ∀ g ∈ p.filters, g.union ≠ [] ∧ ∀ f ∈ g.union, f.IsFull := by
    simp [schema, json, accepts_object_iff, accepts_array_map_iff, accepts_sort, accepts_group_iff,
      accepts_filterGroup_iff]
  rw [hlists]
  constructor
  · rintro ⟨helements, hfilters⟩
    exact ⟨fun g hg => (helements g hg).1, fun g hg => (helements g hg).2, hfilters⟩
  · rintro ⟨hitems, hmembers, hfilters⟩
    exact ⟨fun g hg => ⟨hitems g hg, hmembers g hg⟩, hfilters⟩

end Plan

/-! ## Compiled plans -/

theorem Filtering.Answers.isFull {year : Int} {field : Field} {f : Filter}
    (h : Filtering.Answers year field f) : f.IsFull := by
  have hallowed := h.allowed
  cases f with
  | equal field values => exact hallowed
  | similar field patterns => exact hallowed.1
  | range field lower upper => trivial
  | flag field => trivial
  | composition field value => trivial

/-- A typed plan is full when its items about names have members. -/
theorem Plan.IsTyped.isFull_iff {P : Kind → Entity → Prop} {year : Int} {p : Plan}
    (h : p.IsTyped P year) : p.IsFull ↔ ∀ g ∈ p.elements, ∀ i ∈ g.items, i.union ≠ [] :=
  ⟨IsFull.members, fun hmembers => ⟨h.elements.items, hmembers, fun g hg =>
    ⟨(h.filters g hg).1, fun f hf => ((h.filters g hg).2 f hf).isFull⟩⟩⟩

namespace Compiler

open Plan (spine)

variable {c : Compiler} {lookup : Lookup} {text : String} {clock : Int} {p : Plan}

theorem mem_items_iff {root : Tree} (hparsed : (c.parsed text).result = some root)
    {nodes : List Tree} (hnodes : Query.itemNodes root = .ok nodes) {i : Query.Item} :
    i ∈ c.items text ↔ ∃ node ∈ nodes, Query.readItem node = .ok i := by
  simp only [items, hparsed, hnodes, Except.toOption, Option.getD_some, List.mem_filterMap]
  refine exists_congr fun node => and_congr_right fun _ => ?_
  cases Query.readItem node <;> simp

/-- The items about names of a compiled plan have members if no item of the text asks for none, and
only then. -/
theorem members_iff_of_compile (h : (c.compile lookup text clock).result = some p) :
    (∀ g ∈ p.elements, ∀ i ∈ g.items, i.union ≠ []) ↔
      ∀ i ∈ c.items text, ¬Analysis.AsksForNone i := by
  obtain ⟨m, hm, rfl⟩ := exists_meaning_of_compile h
  have hgroups : (∀ g ∈ (Plan.ofMeaning m).elements, ∀ i ∈ g.items, i.union ≠ []) ↔
      ∀ c ∈ m.elements, c.union ≠ [] := Plan.forall_mem_groups
  rw [hgroups]
  rw [understand, front_eq] at hm
  cases hparsed : (c.parsed text).result with
  | none =>
    rw [hparsed] at hm
    simp only at hm
    split at hm
    · obtain rfl := Option.some.inj hm
      simp [items, hparsed, Meaning.empty]
    · cases hm
  | some root =>
    rw [hparsed] at hm
    obtain ⟨nodes, hnodes, _⟩ := exists_of_analyze hm
    rw [ne_nil_iff_of_analyze hnodes hm]
    constructor
    · intro hnone i hi
      obtain ⟨node, hnode, hread⟩ := (mem_items_iff hparsed hnodes).mp hi
      exact hnone node hnode i hread
    · exact fun hnone node hnode i hread =>
        hnone i ((mem_items_iff hparsed hnodes).mpr ⟨node, hnode, hread⟩)

/-- **When a compiled plan has the form of the schema.** For every grammar, lookup, text and all
options: the groups of a compiled plan have items, and so have the groups of its filters; no filter
has an empty list of values or patterns; and its document has the form of the schema of plans if and
only if each item about names has members, which is so unless an item of the text consists of fields
of metadata with empty collections. -/
theorem conforms_of_compile (h : (c.compile lookup text clock).result = some p) :
    (∀ g ∈ p.elements, g.items ≠ []) ∧
    (∀ g ∈ p.filters, g.union ≠ [] ∧ ∀ f ∈ g.union, f.IsFull) ∧
    (Plan.schema.accepts p.json = true ↔ ∀ g ∈ p.elements, ∀ i ∈ g.items, i.union ≠ []) ∧
    ((∀ g ∈ p.elements, ∀ i ∈ g.items, i.union ≠ []) ↔
      ∀ i ∈ c.items text, ¬Analysis.AsksForNone i) := by
  have htyped := isTyped_of_compile lookup.tells_anything h
  refine ⟨htyped.elements.items, fun g hg => ⟨(htyped.filters g hg).1, fun f hf =>
    ((htyped.filters g hg).2 f hf).isFull⟩, ?_, members_iff_of_compile h⟩
  rw [Plan.accepts_json_iff, htyped.isFull_iff]

/-- Free text and a size have no empty list: the plan of `'sky' size>=1.5kb` has the form. -/
theorem conforms_of_compile_sky :
    ((ofOptions .default).compile .empty "'sky' size>=1.5kb" 2021).result = some Plan.sky ∧
      Plan.schema.accepts Plan.sky.json = true :=
  ⟨Plan.compile_skyText, (conforms_of_compile Plan.compile_skyText).2.2.1.mpr (by decide)⟩

/-- The tokens of `tag:{}`. -/
def noTagTokens : List Token :=
  [⟨.string "tag" .word, .between 0 3⟩, ⟨.symbol .colon, .between 3 4⟩,
    ⟨.symbol .lBrace, .between 4 5⟩, ⟨.symbol .rBrace, .between 5 6⟩]

/-- The tree of `tag:{}`. -/
def noTagTree : Tree :=
  match noTagTokens.map Tree.leaf with
  | [tag, colon, opening, closing] =>
    let subject := spine [(18, "SUBJECT"), (28, "STRING")] tag
    let collection := Query.nodeOf 39 "COLLECTION" [opening, closing]
    spine [(1, "SEQUENCE"), (4, "SEQUENCE_ITEM"), (8, "ELEMENT"), (13, "ELEMENT_ITEM")]
      (Query.nodeOf 17 "SFP" [subject, spine [(19, "FAMILY")] colon,
        spine [(26, "PREDICATIVE")] collection])
  | _ => default

theorem derived_noTagTree : Query.Derived (.nonterminal "SEQUENCE") noTagTokens noTagTree where
  derivation := by decide
  located := by
    simp [noTagTree, noTagTokens, spine, Query.nodeOf, Tree.Located, Tree.AllLocated]
  tokens := rfl
  symbol := rfl

/-- A snapshot that knows no names. -/
def noNames : Snapshot := ⟨[], [], [], []⟩

theorem compile_noTag :
    ((ofOptions .default).compile noNames.lookup "tag:\x7b\x7d" 2021).result =
      some (Plan.ofTags []) := by
  have hlex : PixQuery.lex default "tag:\x7b\x7d" = ⟨some noTagTokens, [], []⟩ := by decide +kernel
  have hgrammar : (ofOptions .default).grammar = Query.grammar := by
    simp only [ofOptions]
  have hparse := Query.parse_eq_of_derived derived_noTagTree
  rw [← hgrammar] at hparse
  rw [result_compile hlex hparse]
  decide

/-- No names are asked for in `tag:{}`: its plan has an item without members, and not the form. -/
theorem not_conforms_noTag :
    ((ofOptions .default).compile noNames.lookup "tag:\x7b\x7d" 2021).result =
      some (Plan.ofTags []) ∧
      Plan.schema.accepts (Plan.ofTags []).json = false :=
  ⟨compile_noTag, by decide⟩

end Compiler

end PixQuery
