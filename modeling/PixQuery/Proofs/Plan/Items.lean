import PixQuery.Plan.Query
import PixQuery.Proofs.Query.Script

/-!
# The query that a plan is written as

`Plan.query` writes a text. Here is the same query as a list of items: what is written is the script
of these items, for every plan, and that script is legible, because a string is only left without
quotes when it is a bare word.

Results:
* `Plan.toList_query`: the text of a plan is the script of its items.
* `Plan.isWritable_of_mem_items`: the bare words in these items are bare words.
* `Plan.lex_query`: the text of a plan is cut into the lexemes of its items.
-/

namespace PixQuery

open Query (Part Path Value Predicate Relation Family Phrase Element Item Mark Direction
  RangeLiteral Brackets)

/-! ## Strings -/

/-- A string between the quotes of a kind. -/
def quotedPart (kind : StringKind) (text : String) : Part := ⟨text, kind, .point 0⟩

/-- A string as it is, if it is read as one bare word; else between the quotes of a kind. -/
def typedPart (kind : StringKind) (text : String) : Part :=
  quotedPart (if isBareWord text.toList then .word else kind) text

/-- The path of one string. -/
def Query.Path.ofPart (p : Part) : Path := ⟨p, []⟩

/-- The value that is a path, with nothing before it. -/
def Query.Value.ofPath (p : Path) : Value := ⟨none, false, p, .point 0⟩

/-! ## Names -/

/-- The path that leads to an entity. -/
def Entity.typedPath : Entity → Path
  | sourceTag s => ⟨typedPart .backticks s.site, [typedPart .backticks s.name]⟩
  | tag t =>
    match t.address.map (typedPart .backticks) with
    | [] => .ofPart (typedPart .backticks t.name)
    | first :: others => ⟨first, others ++ [typedPart .backticks t.name]⟩
  | topic t =>
    match t.address.map (typedPart .backticks) with
    | [] => .ofPart (typedPart .backticks t.name)
    | first :: others => ⟨first, others ++ [typedPart .backticks t.name]⟩
  | author a => .ofPart (typedPart .backticks a.name)

theorem Entity.parts_typedPath (e : Entity) :
    e.typedPath.parts = e.path.map (typedPart .backticks) := by
  cases e with
  | sourceTag s => rfl
  | author a => rfl
  | tag t => cases h : t.address <;> simp [typedPath, Entity.path, h, Path.parts, Path.ofPart]
  | topic t => cases h : t.address <;> simp [typedPath, Entity.path, h, Path.parts, Path.ofPart]

/-- The phrase of a member: free text between quotes, or the path of an entity. -/
def ElementValue.phrase : ElementValue → Phrase
  | text value exact =>
    ⟨.ofPart (quotedPart (if exact then .doubleQuotes else .apostrophe) value), none, .point 0⟩
  | entity e => ⟨e.typedPath, none, .point 0⟩

/-- The mark before names of a kind. Source tags have a source mark instead. -/
def ElementKind.queryMark : ElementKind → Option Mark
  | of .tag => some .tag
  | of .topic => some .topic
  | of .author => some .author
  | of .sourceTag | text => none

/-- The item about names of a kind. -/
def ElementItem.queryItem (kind : ElementKind) (i : ElementItem) : Item :=
  ⟨i.exclude, kind == .of .sourceTag,
    ⟨kind.queryMark, i.union.map ElementValue.phrase, .point 0⟩, .point 0⟩

/-! ## Sort keys -/

/-- The preferred name of a sort key. -/
def OrderKey.preferredName (k : OrderKey) : Alias :=
  (AliasEntry.preferred? OrderKey.names k).getD default

/-- A sort key as a value. -/
def SortItem.value (s : SortItem) : Value :=
  ⟨match s.direction with
    | .ascending => none
    | .descending => some .descending,
    s.key.preferredName.source, .ofPart (quotedPart .word s.key.preferredName.name), .point 0⟩

/-- The item that sorts. -/
def sortsItem (sorts : List SortItem) : Item :=
  ⟨false, false,
    ⟨none, [⟨.ofPart (quotedPart .word "order"),
      some (.binary .equal (.values (sorts.map SortItem.value)) (.point 0)), .point 0⟩],
      .point 0⟩, .point 0⟩

/-! ## Filters -/

/-- A value of a field as a string of a path. -/
def FilterValue.part (field : Field) : FilterValue → Part
  | text s =>
    if field.type = .patternString then quotedPart .backticks s else typedPart .backticks s
  | number n => typedPart .apostrophe (number n).shown
  | size n => typedPart .apostrophe (size n).shown
  | date d => typedPart .apostrophe (date d).shown

/-- One string alone, or a collection. -/
def predicateOf : List Part → Predicate
  | [p] => .values [.ofPath (.ofPart p)]
  | ps => .collection (ps.map Path.ofPart)

/-- What a field is compared with. -/
def boundsRelation (field : Field) : Option Bound → Option Bound → Option Relation
  | some b, some e =>
    some (.binary .equal (.range ⟨.ofPart (b.value.part field), .ofPart (e.value.part field),
      some ⟨b.inclusive, e.inclusive⟩⟩) (.point 0))
  | some b, none =>
    some (.binary (if b.inclusive then .gte else .gt) (predicateOf [b.value.part field]) (.point 0))
  | none, some e =>
    some (.binary (if e.inclusive then .lte else .lt) (predicateOf [e.value.part field]) (.point 0))
  | none, none => none

/-- The relation of a filter. -/
def Filter.relation : Filter → Option Relation
  | equal field values =>
    some (.binary .equal (predicateOf (values.map (FilterValue.part field))) (.point 0))
  | similar field patterns =>
    some (.binary (if field.type.isMatchable then .similar else .equal)
      (predicateOf (patterns.map (typedPart .apostrophe))) (.point 0))
  | range field lower upper => boundsRelation field lower upper
  | flag _ => none
  | composition _ value =>
    some (.binary .equal (.collection (value.shownNames.map fun n =>
      .ofPart (quotedPart .word (String.ofList (Text.lower n.toList))))) (.point 0))

/-- The phrase of a filter. -/
def Filter.phrase (f : Filter) : Phrase :=
  ⟨.ofPart (quotedPart .word f.field.plainName), f.relation, .point 0⟩

/-- The item of a group of filters. -/
def FilterGroup.queryItem (g : FilterGroup) : Item :=
  ⟨g.exclude, false, ⟨none, g.union.map Filter.phrase, .point 0⟩, .point 0⟩

/-- The items that a plan is written as. -/
def Plan.items (p : Plan) : List Item :=
  (if p.sorts.isEmpty then [] else [sortsItem p.sorts]) ++
    (p.elements.flatMap fun g => g.items.map (ElementItem.queryItem g.kind)) ++
    p.filters.map FilterGroup.queryItem

/-! ## The text is the script -/

namespace Script

theorem chars_append (s t : Script) : chars (s ++ t) = chars s ++ chars t :=
  List.flatMap_append

theorem chars_separated (between : Script) : ∀ ss : List Script,
    chars (separated between ss) = (chars between).intercalate (ss.map chars)
  | [] => rfl
  | [s] => by simp [separated]
  | s :: t :: ss => by
    have ih := chars_separated between (t :: ss)
    rw [separated] at ih ⊢
    rw [List.flatMap_cons, List.map_cons, List.map_cons, List.intercalate_cons_cons,
      ← List.map_cons, ← ih, chars_append, List.append_assoc, chars_append, List.append_assoc]

theorem chars_nil : chars [] = [] := rfl

theorem chars_sym (s : Symbol) (t : Script) : chars (sym s :: t) = s.spelling.toList ++ chars t :=
  rfl

end Script

open Script (chars sym separated)

theorem chars_word (text : String) : chars [(quotedPart .word text).piece] = text.toList :=
  List.append_nil _

theorem chars_quoted {kind : StringKind} {quote : Char} (h : kind.quote? = some quote)
    (text : String) : chars [(quotedPart kind text).piece] = (quoted quote text).toList := by
  simp [chars, Script.pieceChars, Part.piece, quotedPart, Lexeme.chars, h]

theorem chars_typed {kind : StringKind} {quote : Char} (h : kind.quote? = some quote)
    (text : String) : chars [(typedPart kind text).piece] = (quotedIfNeeded quote text).toList := by
  rw [typedPart, quotedIfNeeded]
  split
  · exact chars_word text
  · exact chars_quoted h text

theorem Query.Path.script_ofPart (p : Part) : (Path.ofPart p).script = [p.piece] := rfl

theorem Entity.chars_typedPath (e : Entity) :
    chars e.typedPath.script = (".".intercalate (e.path.map typedName)).toList := by
  rw [Path.script, Script.chars_separated, Entity.parts_typedPath, String.toList_intercalate,
    List.map_map, List.map_map, List.map_map]
  congr 1
  exact List.map_congr_left fun name _ => chars_typed rfl name

theorem ElementValue.chars_phrase (v : ElementValue) : chars v.phrase.script = v.query.toList := by
  cases v with
  | text value exact =>
    rw [phrase, Phrase.script, Path.script_ofPart, query]
    cases exact
    · exact chars_quoted rfl value
    · exact chars_quoted rfl value
  | entity e =>
    rw [phrase, Phrase.script, Option.map_none, Option.getD_none, List.append_nil,
      Entity.chars_typedPath, query]

theorem chars_exclusion (exclude : Bool) :
    chars (if exclude then [sym .minus] else []) = (exclusion exclude).toList := by
  cases exclude <;> rfl

theorem ElementKind.chars_mark (kind : ElementKind) :
    chars (if kind == .of .sourceTag then [sym .caret] else []) ++
      chars (kind.queryMark.toList.map fun m => sym m.symbol) = kind.mark.toList := by
  match kind with
  | .text => rfl
  | .of k => cases k <;> rfl

theorem ElementItem.chars_queryItem (kind : ElementKind) (i : ElementItem) :
    chars (i.queryItem kind).script = (i.query kind).toList := by
  have hunion : chars
      (separated [sym .pipe] ((i.union.map ElementValue.phrase).map Phrase.script)) =
      ("|".intercalate (i.union.map ElementValue.query)).toList := by
    rw [Script.chars_separated, String.toList_intercalate, List.map_map, List.map_map, List.map_map]
    congr 1
    exact List.map_congr_left fun v _ => v.chars_phrase
  rw [queryItem, Item.script, Element.script, query, String.toList_append, String.toList_append,
    ← hunion, ← kind.chars_mark, ← chars_exclusion]
  simp only [Script.chars_append, List.append_assoc]

theorem SortItem.chars_value (s : SortItem) : chars s.value.script = s.query.toList := by
  obtain ⟨key, direction⟩ := s
  cases direction <;> cases key <;> rfl

theorem chars_sortsItem (sorts : List SortItem) :
    chars (sortsItem sorts).script = (sortsQuery sorts).toList := by
  have hvalues : chars (separated [sym .comma] ((sorts.map SortItem.value).map Value.script)) =
      (",".intercalate (sorts.map SortItem.query)).toList := by
    rw [Script.chars_separated, String.toList_intercalate, List.map_map, List.map_map, List.map_map]
    congr 1
    exact List.map_congr_left fun s _ => s.chars_value
  have hscript : (sortsItem sorts).script = (quotedPart .word "order").piece :: sym .colon ::
      separated [sym .comma] ((sorts.map SortItem.value).map Value.script) := by
    rw [sortsItem, Item.script, Element.script, List.map_singleton, separated, List.flatMap_nil,
      List.append_nil]
    rfl
  rw [sortsQuery, String.toList_append, ← hvalues, hscript]
  rfl

theorem Field.chars_plainName (f : Field) :
    chars (Path.ofPart (quotedPart .word f.plainName)).script = f.plainName.toList :=
  chars_word _

theorem FilterValue.chars_part (field : Field) (v : FilterValue) :
    chars [(v.part field).piece] = (v.query field).toList := by
  cases v with
  | text s =>
    rw [part, query]
    split
    · exact chars_quoted rfl s
    · exact chars_typed rfl s
  | number n => exact chars_typed rfl _
  | size n => exact chars_typed rfl _
  | date d => exact chars_typed rfl _

theorem chars_collection (ps : List Path) :
    chars (Predicate.collection ps).script =
      '\x7b' :: ([',', ' '].intercalate (ps.map fun p => chars p.script) ++ ['\x7d']) := by
  have hmembers : chars (separated [sym .comma, none] (ps.map Path.script)) =
      [',', ' '].intercalate (ps.map fun p => chars p.script) := by
    rw [Script.chars_separated, List.map_map]
    rfl
  rw [Predicate.script, Script.chars_sym, Script.chars_append, hmembers]
  rfl

theorem chars_predicateOf {α : Type} {f : α → Part} {g : α → String}
    (h : ∀ a, chars [(f a).piece] = (g a).toList) (as : List α) :
    chars (predicateOf (as.map f)).script = (oneOrCollection (as.map g)).toList := by
  have hmany : chars (Predicate.collection ((as.map f).map Path.ofPart)).script =
      ("\x7b" ++ ", ".intercalate (as.map g) ++ "\x7d").toList := by
    rw [chars_collection, String.toList_append, String.toList_append, String.toList_intercalate,
      List.map_map, List.map_map, List.map_map]
    have hmap : as.map ((fun p => chars (Path.script p)) ∘ Path.ofPart ∘ f) =
        as.map (String.toList ∘ g) := List.map_congr_left fun a _ => h a
    rw [← hmap]
    rfl
  match as with
  | [] => exact hmany
  | [a] => exact h a
  | _ :: _ :: _ => exact hmany

theorem chars_boundsRelation (field : Field) (lower upper : Option Bound) :
    chars (((boundsRelation field lower upper).map Relation.script).getD []) =
      (boundsQuery field lower upper).toList := by
  match lower, upper with
  | none, none => rfl
  | some ⟨value, inclusive⟩, none =>
    cases inclusive <;> rw [boundsQuery, String.toList_append, ← value.chars_part field] <;> rfl
  | none, some ⟨value, inclusive⟩ =>
    cases inclusive <;> rw [boundsQuery, String.toList_append, ← value.chars_part field] <;> rfl
  | some ⟨first, includeBegin⟩, some ⟨last, includeEnd⟩ =>
    have hscript : ((boundsRelation field (some ⟨first, includeBegin⟩)
        (some ⟨last, includeEnd⟩)).map Relation.script).getD [] =
        sym .colon :: sym (if includeBegin then .lBracket else .lParen) ::
          ([(first.part field).piece] ++ sym .comma ::
            ([(last.part field).piece] ++ [sym (if includeEnd then .rBracket else .rParen)])) := rfl
    rw [hscript, boundsQuery]
    simp only [Script.chars_sym, Script.chars_append, FilterValue.chars_part, Script.chars_nil,
      String.toList_append, List.append_assoc, List.append_nil]
    cases includeBegin <;> cases includeEnd <;> rfl

theorem Filter.chars_phrase (f : Filter) : chars f.phrase.script = f.query.toList := by
  rw [phrase, Phrase.script, Script.chars_append, Field.chars_plainName]
  cases f with
  | equal field values =>
    rw [query, String.toList_append, String.toList_append,
      ← chars_predicateOf (FilterValue.chars_part field) values, List.append_assoc]
    rfl
  | similar field patterns =>
    have htyped : ∀ text, chars [(typedPart .apostrophe text).piece] =
        (quotedIfNeeded '\x27' text).toList := chars_typed rfl
    rw [query, String.toList_append, String.toList_append, ← chars_predicateOf htyped patterns,
      List.append_assoc, relation]
    cases field.type.isMatchable <;> rfl
  | range field lower upper =>
    rw [relation, chars_boundsRelation, query, String.toList_append]
    rfl
  | flag field => exact List.append_nil _
  | composition field value =>
    have hnames : [',', ' '].intercalate ((value.shownNames.map fun n =>
        Path.ofPart (quotedPart .word (String.ofList (Text.lower n.toList)))).map
          fun p => chars p.script) = (", ".intercalate (value.shownNames.map fun n =>
            String.ofList (Text.lower n.toList))).toList := by
      rw [String.toList_intercalate, List.map_map, List.map_map]
      congr 1
      exact List.map_congr_left fun n _ => chars_word _
    rw [query, String.toList_append, String.toList_append, String.toList_append, ← hnames, relation,
      Option.map_some, Option.getD_some, Relation.script, Script.chars_sym, chars_collection]
    simp only [List.append_assoc]
    rfl

theorem FilterGroup.chars_queryItem (g : FilterGroup) :
    chars g.queryItem.script = g.query.toList := by
  have hunion : chars (separated [sym .pipe] ((g.union.map Filter.phrase).map Phrase.script)) =
      ("|".intercalate (g.union.map Filter.query)).toList := by
    rw [Script.chars_separated, String.toList_intercalate, List.map_map, List.map_map, List.map_map]
    congr 1
    exact List.map_congr_left fun f _ => f.chars_phrase
  rw [queryItem, Item.script, Element.script, query, String.toList_append, ← hunion,
    ← chars_exclusion]
  simp only [Script.chars_append]
  simp [chars]

namespace Plan

/-- **The text of a plan is the script of its items.** -/
theorem toList_query (p : Plan) : p.query.toList = chars (Query.script p.items) := by
  have hitems : p.items.map (fun i => chars i.script) = p.queryItems.map String.toList := by
    have helements : ∀ gs : List ElementGroup,
        (gs.flatMap fun g => g.items.map (ElementItem.queryItem g.kind)).map
          (fun i => chars i.script) =
          (gs.flatMap fun g => g.items.map (ElementItem.query g.kind)).map String.toList := by
      intro gs
      rw [List.map_flatMap, List.map_flatMap]
      congr 1
      funext g
      rw [List.map_map, List.map_map]
      exact List.map_congr_left fun i _ => i.chars_queryItem g.kind
    rw [items, queryItems, List.map_append, List.map_append, helements, List.map_append,
      List.map_append, List.map_map, List.map_map]
    congr 1
    · congr 1
      split
      · rfl
      · exact congrArg (fun cs => [cs]) (chars_sortsItem p.sorts)
    · exact List.map_congr_left fun g _ => g.chars_queryItem
  rw [query, String.toList_intercalate, Query.script, Script.chars_separated,
    List.map_map, ← hitems]
  rfl

end Plan

/-! ## The script is legible -/

/-- A string that is a bare word if it is written as one. -/
def Query.Part.IsWritable (p : Part) : Prop := p.kind = .word → isBareWord p.value.toList = true

theorem isWritable_quotedPart {kind : StringKind} (h : kind ≠ .word) (text : String) :
    (quotedPart kind text).IsWritable := fun hk => absurd hk h

theorem isWritable_typedPart {kind : StringKind} (h : kind ≠ .word) (text : String) :
    (typedPart kind text).IsWritable := by
  unfold typedPart Query.Part.IsWritable quotedPart
  split
  · rename_i hbare
    exact fun _ => hbare
  · exact fun hk => absurd hk h

theorem isWritable_ofPart {p : Part} (h : p.IsWritable) : (Path.ofPart p).IsWritable := by
  intro q hq
  obtain rfl : q = p := List.mem_singleton.mp hq
  exact h

theorem Entity.isWritable_typedPath (e : Entity) : e.typedPath.IsWritable := fun q hq => by
  rw [Entity.parts_typedPath] at hq
  obtain ⟨name, _, rfl⟩ := List.mem_map.mp hq
  exact isWritable_typedPart (by decide) name

theorem ElementValue.isWritable_phrase (v : ElementValue) : v.phrase.IsWritable := by
  refine ⟨?_, fun r hr => by cases v <;> cases hr⟩
  cases v with
  | text value exact =>
    exact isWritable_ofPart (isWritable_quotedPart (by cases exact <;> decide) value)
  | entity e => exact e.isWritable_typedPath

theorem isWritable_sortsItem (sorts : List SortItem) : (sortsItem sorts).IsWritable := by
  have hnames : ∀ k : OrderKey, isBareWord k.preferredName.name.toList = true := by
    intro k
    cases k <;> decide
  intro p hp
  obtain rfl := List.mem_singleton.mp hp
  refine ⟨isWritable_ofPart fun _ => by decide, fun r hr => ?_⟩
  obtain rfl := Option.some.inj hr
  refine ⟨fun v hv => ?_, fun hf => by cases hf⟩
  obtain ⟨s, _, rfl⟩ := List.mem_map.mp hv
  exact isWritable_ofPart fun _ => hnames s.key

theorem isBareWord_plainName (f : Field) : isBareWord f.plainName.toList = true := by
  cases f <;> decide

theorem FilterValue.isWritable_part (field : Field) (v : FilterValue) :
    (v.part field).IsWritable := by
  cases v with
  | text s =>
    rw [part]
    split
    · exact isWritable_quotedPart (by decide) s
    · exact isWritable_typedPart (by decide) s
  | number n => exact isWritable_typedPart (by decide) _
  | size n => exact isWritable_typedPart (by decide) _
  | date d => exact isWritable_typedPart (by decide) _

theorem isWritable_predicateOf {ps : List Part} (h : ∀ p ∈ ps, p.IsWritable) :
    (predicateOf ps).IsWritable ∧ (predicateOf ps).IsUndirected := by
  have hmany : (Predicate.collection (ps.map Path.ofPart)).IsWritable := fun q hq => by
    obtain ⟨p, hp, rfl⟩ := List.mem_map.mp hq
    exact isWritable_ofPart (h p hp)
  match ps with
  | [] => exact ⟨hmany, trivial⟩
  | [p] =>
    refine ⟨fun v hv => ?_, fun v hv => ?_⟩
    · obtain rfl := List.mem_singleton.mp hv
      exact isWritable_ofPart (h p List.mem_cons_self)
    · obtain rfl : Value.ofPath (.ofPart p) = v := Option.some.inj hv
      rfl
  | _ :: _ :: _ => exact ⟨hmany, trivial⟩

/-- The names of flags are bare words. -/
theorem isBareWord_of_mem_shownNames {value : Tagme} {n : String} (h : n ∈ value.shownNames) :
    isBareWord (Text.lower n.toList) = true := by
  have hall : ∀ f ∈ FlagFamily.tagme.flags, isBareWord (Text.lower f.1.toList) = true := by
    decide
  have hconsume : ∀ (fs : List (String × UInt32)) (rest : UInt32) (n : String),
      n ∈ Flags.consume rest fs → ∃ f ∈ fs, f.1 = n := by
    intro fs
    induction fs with
    | nil => intro rest n hn; cases hn
    | cons f fs ih =>
      intro rest n hn
      rw [Flags.consume] at hn
      split at hn
      · rcases List.mem_cons.mp hn with rfl | hn
        · exact ⟨f, List.mem_cons_self, rfl⟩
        · obtain ⟨g, hg, hgn⟩ := ih _ n hn
          exact ⟨g, List.mem_cons_of_mem f hg, hgn⟩
      · obtain ⟨g, hg, hgn⟩ := ih _ n hn
        exact ⟨g, List.mem_cons_of_mem f hg, hgn⟩
  obtain ⟨f, hf, rfl⟩ := hconsume _ _ n h
  refine hall f ?_
  rcases List.mem_append.mp hf with hf | hf
  · exact (List.mem_filter.mp (List.mem_mergeSort.mp hf)).1
  · exact (List.mem_filter.mp hf).1

theorem isWritable_boundsRelation (field : Field) (lower upper : Option Bound) :
    ∀ r, boundsRelation field lower upper = some r → r.IsWritable := by
  intro r hr
  have hone : ∀ v : FilterValue, (predicateOf [v.part field]).IsWritable ∧
      (predicateOf [v.part field]).IsUndirected := fun v =>
    isWritable_predicateOf fun p hp => by
      obtain rfl := List.mem_singleton.mp hp
      exact v.isWritable_part field
  match lower, upper with
  | none, none => cases hr
  | some b, none =>
    obtain rfl := Option.some.inj hr
    exact ⟨(hone b.value).1, fun _ => (hone b.value).2⟩
  | none, some e =>
    obtain rfl := Option.some.inj hr
    exact ⟨(hone e.value).1, fun _ => (hone e.value).2⟩
  | some b, some e =>
    obtain rfl := Option.some.inj hr
    exact ⟨⟨isWritable_ofPart (b.value.isWritable_part field),
      isWritable_ofPart (e.value.isWritable_part field)⟩, fun _ => trivial⟩

theorem Filter.isWritable_phrase (f : Filter) : f.phrase.IsWritable := by
  refine ⟨isWritable_ofPart fun _ => isBareWord_plainName f.field, fun r hr => ?_⟩
  cases f with
  | equal field values =>
    obtain rfl := Option.some.inj hr
    have hparts := @isWritable_predicateOf (values.map (FilterValue.part field)) fun p hp => by
      obtain ⟨v, _, rfl⟩ := List.mem_map.mp hp
      exact v.isWritable_part field
    exact ⟨hparts.1, fun _ => hparts.2⟩
  | similar field patterns =>
    obtain rfl := Option.some.inj hr
    have hparts := @isWritable_predicateOf (patterns.map (typedPart .apostrophe)) fun p hp => by
      obtain ⟨text, _, rfl⟩ := List.mem_map.mp hp
      exact isWritable_typedPart (by decide) text
    exact ⟨hparts.1, fun _ => hparts.2⟩
  | range field lower upper => exact isWritable_boundsRelation field lower upper r hr
  | flag field => cases hr
  | composition field value =>
    obtain rfl := Option.some.inj hr
    refine ⟨fun q hq => ?_, fun hf => by cases hf⟩
    obtain ⟨n, hn, rfl⟩ := List.mem_map.mp hq
    exact isWritable_ofPart fun _ => by
      rw [quotedPart, String.toList_ofList]
      exact isBareWord_of_mem_shownNames hn

namespace Plan

/-- **The items of a plan can be written**: every bare word in them is one. -/
theorem isWritable_of_mem_items {p : Plan} {i : Item} (h : i ∈ p.items) : i.IsWritable := by
  rw [items, List.mem_append, List.mem_append] at h
  rcases h with (h | h) | h
  · split at h
    · cases h
    · obtain rfl := List.mem_singleton.mp h
      exact isWritable_sortsItem p.sorts
  · obtain ⟨g, _, h⟩ := List.mem_flatMap.mp h
    obtain ⟨e, _, rfl⟩ := List.mem_map.mp h
    intro q hq
    obtain ⟨v, _, rfl⟩ := List.mem_map.mp hq
    exact v.isWritable_phrase
  · obtain ⟨g, _, rfl⟩ := List.mem_map.mp h
    intro q hq
    obtain ⟨f, _, rfl⟩ := List.mem_map.mp hq
    exact f.isWritable_phrase

/-- **The tokens of a plan that is written** are the lexemes of its items. -/
theorem lex_query (p : Plan) : ∃ tokens, lex default p.query = ⟨some tokens, [], []⟩ ∧
    tokens.map Token.lexeme = Script.lexemes (Query.script p.items) := by
  have hlegible := Query.legible_script fun i (hi : i ∈ p.items) => isWritable_of_mem_items hi
  obtain ⟨tokens, hlex, htokens⟩ := Script.lex_chars hlegible
  refine ⟨tokens, ?_, htokens⟩
  rw [← hlex, ← toList_query, String.ofList_toList]

end Plan

end PixQuery
