import PixQuery.Proofs.Plan.Items
import PixQuery.Proofs.Query.Lossless

/-!
# The strings of a plan

Names, texts and patterns of a plan may be any strings. Whatever they hold, the query that the plan
is written as is cut into tokens again, and its strings are those that the plan asks for, in their
order and each as one token: no string breaks up, joins its neighbour or turns into symbols.

Results:
* `Query.Item.strings_script`: the strings of a script are those of the item that is written so.
* `Plan.strings_query`: the strings of the query are those of the plan.
-/

namespace PixQuery

open Query (Part Path Value Predicate Relation Phrase Item)

/-! ## What a plan asks for -/

/-- The strings that an entity is written with: its address or site, and its name. -/
def Entity.strings : Entity → List String
  | sourceTag s => [s.site, s.name]
  | e@(tag _) | e@(topic _) | e@(author _) => e.address ++ [e.name]

/-- The strings of a member of an item about names. -/
def ElementValue.strings : ElementValue → List String
  | text value _ => [value]
  | entity e => e.strings

/-- The strings that a filter compares its field with. -/
def Filter.operands : Filter → List String
  | equal _ values => values.map FilterValue.shown
  | similar _ patterns => patterns
  | range _ lower upper => (lower.toList ++ upper.toList).map fun b => b.value.shown
  | flag _ => []
  | composition _ value => value.shownNames.map fun n => String.ofList (Text.lower n.toList)

/-- The strings of a filter: the name of its field, and what it is compared with. -/
def Filter.strings (f : Filter) : List String := f.field.plainName :: f.operands

/-- The strings of the sort keys, behind the word that begins them. -/
def sortStrings (sorts : List SortItem) : List String :=
  if sorts.isEmpty then [] else "order" :: sorts.map fun s => s.key.preferredName.name

/-- The strings that a plan asks for, in the order of the plan. -/
def Plan.strings (p : Plan) : List String :=
  sortStrings p.sorts ++
    (p.elements.flatMap fun g => g.items.flatMap fun i => i.union.flatMap ElementValue.strings) ++
    p.filters.flatMap fun g => g.union.flatMap Filter.strings

/-! ## The strings of a script -/

namespace Script

/-- The strings of a script. -/
def strings (s : Script) : List String :=
  (lexemes s).filterMap fun l =>
    match l with
    | .string value _ => some value
    | .symbol _ => none

theorem strings_append (s t : Script) : strings (s ++ t) = strings s ++ strings t := by
  rw [strings, lexemes_append, List.filterMap_append]
  rfl

@[simp] theorem strings_nil : strings [] = [] := rfl

@[simp] theorem strings_sym (u : Symbol) (s : Script) : strings (sym u :: s) = strings s := rfl

/-- The strings of scripts with one between them that has none. -/
theorem strings_separated {between : Script} (h : strings between = []) (ss : List Script) :
    strings (separated between ss) = ss.flatMap strings := by
  cases ss with
  | nil => rfl
  | cons s ss =>
    rw [separated, strings_append, List.flatMap_cons]
    congr 1
    induction ss with
    | nil => rfl
    | cons t ss ih =>
      rw [List.flatMap_cons, List.flatMap_cons, strings_append, strings_append, h, List.nil_append,
        ih]

end Script

namespace Query

open Script (strings strings_append strings_separated)

theorem Path.strings_script (p : Path) : strings p.script = p.parts.map Part.value := by
  rw [script, strings_separated rfl, List.flatMap_map, ← List.flatMap_pure_eq_map]
  rfl

theorem Value.strings_script (v : Value) : strings v.script = v.path.parts.map Part.value := by
  obtain ⟨direction, source, path, range⟩ := v
  match direction, source with
  | none, false | none, true | some _, false | some _, true => exact path.strings_script

theorem Predicate.strings_script (p : Predicate) : strings p.script = p.parts.map Part.value := by
  cases p with
  | values vs =>
    rw [script, strings_separated rfl, parts, List.flatMap_map, List.map_flatMap]
    simp only [Value.strings_script]
  | collection ps =>
    rw [script, Script.strings_sym, strings_append, strings_separated rfl, parts, List.flatMap_map,
      List.map_flatMap]
    simp only [Path.strings_script, Script.strings_sym, Script.strings_nil, List.append_nil]
  | range r =>
    obtain ⟨first, last, brackets⟩ := r
    cases brackets <;>
      simp [script, RangeLiteral.script, parts, strings_append, Path.strings_script]

theorem Relation.strings_script (r : Relation) : strings r.script = r.parts.map Part.value := by
  cases r with
  | binary family predicate range => exact predicate.strings_script
  | unary direction range => cases direction <;> rfl

theorem Phrase.strings_script (p : Phrase) : strings p.script = p.parts.map Part.value := by
  obtain ⟨subject, relation, range⟩ := p
  cases relation with
  | none => simp [script, parts, Path.strings_script]
  | some r =>
    simp [script, parts, strings_append, Path.strings_script, Relation.strings_script]

/-- **The strings of a script** are those of the item that is written so. -/
theorem Item.strings_script (i : Item) : strings i.script = i.parts.map Part.value := by
  obtain ⟨exclude, source, ⟨mark, phrases, range⟩, _⟩ := i
  have hphrases : strings (Script.separated [Script.sym .pipe] (phrases.map Phrase.script)) =
      (phrases.flatMap Phrase.parts).map Part.value := by
    rw [strings_separated rfl, List.flatMap_map, List.map_flatMap]
    simp only [Phrase.strings_script]
  rw [script_eq, strings_append, Element.script, strings_append, hphrases]
  cases exclude <;> cases source <;> cases mark <;> rfl

end Query

/-! ## The strings of what a plan is written as -/

theorem Entity.path_eq_strings (e : Entity) : e.path = e.strings := by
  cases e <;> rfl

theorem values_typedParts (kind : StringKind) (texts : List String) :
    (texts.map (typedPart kind)).map Part.value = texts := by
  rw [List.map_map]
  exact List.map_id texts

theorem ElementValue.values_phrase (v : ElementValue) :
    v.phrase.parts.map Part.value = v.strings := by
  cases v with
  | text value exact => rfl
  | entity e =>
    have hparts : Phrase.parts (phrase (.entity e)) = e.typedPath.parts := List.append_nil _
    rw [hparts, Entity.parts_typedPath, values_typedParts, Entity.path_eq_strings]
    rfl

theorem FilterValue.value_part (field : Field) (v : FilterValue) :
    (v.part field).value = v.shown := by
  cases v with
  | text s =>
    rw [part]
    split <;> rfl
  | number n => rfl
  | size n => rfl
  | date d => rfl

theorem FilterValue.values_parts (field : Field) (vs : List FilterValue) :
    (vs.map (part field)).map Part.value = vs.map shown := by
  rw [List.map_map]
  exact List.map_congr_left fun v _ => v.value_part field

theorem parts_paths (ps : List Part) : (ps.map Path.ofPart).flatMap Path.parts = ps := by
  rw [List.flatMap_map]
  exact List.flatMap_singleton' ps

theorem parts_predicateOf (ps : List Part) : (predicateOf ps).parts = ps := by
  match ps with
  | [] => rfl
  | [_] => rfl
  | p :: q :: ps => exact parts_paths (p :: q :: ps)

theorem values_boundsRelation (field : Field) (lower upper : Option Bound) :
    (((boundsRelation field lower upper).map Relation.parts).getD []).map Part.value =
      (lower.toList ++ upper.toList).map fun b => b.value.shown := by
  match lower, upper with
  | none, none => rfl
  | some b, none => exact congrArg (fun s => [s]) (b.value.value_part field)
  | none, some e => exact congrArg (fun s => [s]) (e.value.value_part field)
  | some b, some e =>
    exact congrArg₂ (fun s t => [s, t]) (b.value.value_part field) (e.value.value_part field)

/-- The strings that a filter is written with are the name of its field and its operands. -/
theorem Filter.values_phrase (f : Filter) : f.phrase.parts.map Part.value = f.strings := by
  have hphrase : f.phrase.parts.map Part.value = f.field.plainName ::
      ((f.relation.map Relation.parts).getD []).map Part.value := rfl
  rw [hphrase, strings]
  congr 1
  cases f with
  | equal field values =>
    exact (congrArg (List.map Part.value) (parts_predicateOf _)).trans
      (FilterValue.values_parts field values)
  | similar field patterns =>
    exact (congrArg (List.map Part.value) (parts_predicateOf _)).trans
      (values_typedParts .apostrophe patterns)
  | range field lower upper => exact values_boundsRelation field lower upper
  | flag field => rfl
  | composition field value =>
    have hparts := parts_paths (value.shownNames.map fun n =>
      quotedPart .word (String.ofList (Text.lower n.toList)))
    rw [List.map_map] at hparts
    refine (congrArg (List.map Part.value) hparts).trans ?_
    rw [List.map_map]
    rfl

theorem values_sortsItem (sorts : List SortItem) :
    (sortsItem sorts).parts.map Part.value =
      "order" :: sorts.map fun s => s.key.preferredName.name := by
  have hvalues : ((sorts.map SortItem.value).flatMap fun v => v.path.parts).map Part.value =
      sorts.map fun s => s.key.preferredName.name := by
    rw [List.flatMap_map, List.map_flatMap]
    exact List.flatMap_pure_eq_map _ sorts
  rw [← hvalues, sortsItem, Item.parts, List.flatMap_singleton]
  rfl

theorem ElementItem.values_queryItem (kind : ElementKind) (i : ElementItem) :
    (i.queryItem kind).parts.map Part.value = i.union.flatMap ElementValue.strings := by
  rw [queryItem, Item.parts, List.flatMap_map, List.map_flatMap]
  simp only [ElementValue.values_phrase]

theorem FilterGroup.values_queryItem (g : FilterGroup) :
    g.queryItem.parts.map Part.value = g.union.flatMap Filter.strings := by
  rw [queryItem, Item.parts, List.flatMap_map, List.map_flatMap]
  simp only [Filter.values_phrase]

namespace Plan

/-- The strings of the items that a plan is written as are those of the plan. -/
theorem values_items (p : Plan) : (p.items.flatMap Item.parts).map Part.value = p.strings := by
  have hsorts : ((if p.sorts.isEmpty then [] else [sortsItem p.sorts]).flatMap Item.parts).map
      Part.value = sortStrings p.sorts := by
    unfold sortStrings
    split
    · rfl
    · rw [List.flatMap_singleton, values_sortsItem]
  rw [items, List.flatMap_append, List.flatMap_append, List.map_append, List.map_append, hsorts]
  simp only [List.flatMap_assoc, List.flatMap_map, List.map_flatMap, ElementItem.values_queryItem,
    FilterGroup.values_queryItem]
  rfl

/-- **A plan is written without loss of its strings**, whatever they hold: the query is cut into
tokens without an error or a warning, and the strings among these are those that the plan asks for,
each as one token and in the order of the plan. -/
theorem strings_query (p : Plan) : ∃ tokens, lex default p.query = ⟨some tokens, [], []⟩ ∧
    tokens.filterMap (fun t => t.string?.map Prod.fst) = p.strings := by
  obtain ⟨tokens, hlex, hlexemes⟩ := p.lex_query
  refine ⟨tokens, hlex, ?_⟩
  have htokens : tokens.filterMap (fun t => t.string?.map Prod.fst) =
      Script.strings (Query.script p.items) := by
    rw [Script.strings, ← hlexemes, List.filterMap_map]
    refine List.filterMap_congr fun t _ => ?_
    obtain ⟨lexeme, range⟩ := t
    cases lexeme <;> rfl
  calc tokens.filterMap (fun t => t.string?.map Prod.fst)
      = Script.strings (Query.script p.items) := htokens
    _ = p.items.flatMap fun i => i.parts.map Part.value := by
        rw [Query.script, Script.strings_separated rfl, List.flatMap_map]
        simp only [Item.strings_script]
    _ = p.strings := by rw [← values_items, List.map_flatMap]

-- a name that holds symbols is one string between quotes
example :
    (Plan.mk [] [⟨.of .author, [⟨false, [.entity (.author ⟨1, "-a|b", [], ⟨0⟩⟩)]⟩]⟩] []).query =
    "@\x60-a|b\x60" := by
  decide

end Plan

end PixQuery
