import PixQuery.Proofs.Metadata.Addresses
import PixQuery.Proofs.Metadata.Entities
import PixQuery.Proofs.Plan.Rereading

/-!
# The path of an entity finds it

An entity is written as its path: the names of its ancestors or its site, and its own name behind
them. Each name is read back as a part that is exact, plain or a pattern, as it was written between
backticks or not, and that matches the name it was written for: a pattern matches itself, since an
asterisk stands for an asterisk too. The parts before the last match the ancestors one by one, and
so the path means the entity, among others perhaps.

Results:
* `Matcher.patternMatches_cons`: how a pattern matches, character by character.
* `Query.exists_isPath`: the path of an entity is read back as a query.
* `Snapshot.resolve_of_path`: no path of an entity is unknown.
* `Snapshot.exists_isPath_byName`: an entity is among those that its path means.
-/

namespace PixQuery

open Query (Path Part Item)

/-! ## Patterns -/

namespace Matcher

theorem placesFrom_tail (p c : Char) (cs : List Char) (later : List Bool) :
    (placesFrom p (c :: cs) later).tail = placesFrom p cs later.tail :=
  rfl

/-- From the second character on, a pattern matches at the places of the text without the first. -/
theorem places_tail (c : Char) (cs : List Char) : ∀ ps, (places (c :: cs) ps).tail = places cs ps
  | [] => rfl
  | p :: ps => by rw [places, placesFrom_tail, places_tail c cs ps, places]

theorem patternMatches_nil (ps : List Char) (p : Char) :
    patternMatches (p :: ps) [] = (p == '*' && patternMatches ps []) :=
  rfl

/-- **How a pattern matches**: an asterisk stands for nothing, or takes a character that is no line
feed and stands there still; any other character takes the one it stands for. -/
theorem patternMatches_cons (p c : Char) (ps cs : List Char) :
    patternMatches (p :: ps) (c :: cs) =
      if p = '*' then
        patternMatches ps (c :: cs) || (c != '\n' && patternMatches (p :: ps) cs)
      else standsFor p c && patternMatches ps cs := by
  simp only [patternMatches, places, placesFrom, List.headD_cons, places_tail]

theorem patternMatches_asterisk {ps : List Char} : ∀ {cs : List Char},
    patternMatches ps cs = true → patternMatches ('*' :: ps) cs = true
  | [], h => by rw [patternMatches_nil, h]; rfl
  | c :: cs, h => by rw [patternMatches_cons, if_pos rfl, h, Bool.true_or]

theorem standsFor_self (c : Char) : standsFor c c = true := by
  unfold standsFor
  split
  · rename_i h
    rw [h]
    decide
  · exact beq_self_eq_true _

/-- A pattern matches itself. -/
theorem patternMatches_self : ∀ ps : List Char, patternMatches ps ps = true
  | [] => rfl
  | p :: ps => by
    have ih := patternMatches_self ps
    rw [patternMatches_cons]
    split
    · rename_i h
      rw [h, patternMatches_asterisk ih]
      exact Bool.or_true _
    · rw [standsFor_self, ih]
      rfl

end Matcher

/-! ## Names as parts -/

namespace NamePart

/-- The part that a typed name is read as. -/
def typed (name : String) : NamePart :=
  if isBareWord name.toList then ⟨name, false, Value.isPattern name⟩ else ⟨name, true, false⟩

/-- A typed name matches the name. -/
theorem matchesOne_typed (name : String) :
    (Matcher.ofPart (typed name)).matchesOne name = true := by
  unfold typed
  split
  · cases Value.isPattern name
    · simp only [Matcher.ofPart, Matcher.matchesOne, Bool.false_eq_true, if_false, beq_self_eq_true]
    · simp only [Matcher.ofPart, Matcher.matchesOne, if_true, Matcher.patternMatches_self]
  · simp only [Matcher.ofPart, Matcher.matchesOne, Bool.false_eq_true, if_false, if_true,
      beq_self_eq_true]

theorem fits_typed (name : String) (otherNames : List String) :
    (typed name).Fits name otherNames :=
  .inl (matchesOne_typed name)

end NamePart

theorem nameParts_typedPath (e : Entity) :
    nameParts e.typedPath = e.path.map NamePart.typed := by
  rw [nameParts, Entity.parts_typedPath, List.map_map]
  refine List.map_congr_left fun name _ => ?_
  simp only [Function.comp, typedPart, quotedPart, NamePart.typed]
  split <;> rfl

/-! ## The path is read back -/

/-- Whether a text is a query for a path and nothing else: one item without marks, with one phrase
without a relation. -/
def Query.IsPath (text : String) (p : Path) : Prop :=
  ∃ tokens tree node i phrase,
    lex default text = ⟨some tokens, [], []⟩ ∧ Query.grammar.parse tokens = ⟨some tree, [], []⟩ ∧
      Query.itemNodes tree = .ok [node] ∧ Query.readItem node = .ok i ∧
        i.exclude = false ∧ i.source = false ∧ i.element.mark = none ∧
          i.element.phrases = [phrase] ∧ phrase.subject = p ∧ phrase.relation = none

/-- The item for a path and nothing else. -/
def Query.Path.item (p : Path) : Item :=
  ⟨false, false, ⟨none, [⟨p, none, .point 0⟩], .point 0⟩, .point 0⟩

/-- **The path of an entity is read back** as it was written, but for the places of its parts. -/
theorem Query.exists_isPath (e : Entity) :
    ∃ p, Query.IsPath (ElementValue.entity e).query p ∧
      nameParts p = e.path.map NamePart.typed := by
  have hscript : Query.script [e.typedPath.item] = e.typedPath.script := by
    simp [Query.script, Path.item, Item.script, Query.Element.script, Query.Phrase.script,
      Script.separated]
  have hlegible : Script.Legible (Query.script [e.typedPath.item]) :=
    Query.legible_script fun i hi q hq => by
      obtain rfl := List.mem_singleton.mp hi
      obtain rfl := List.mem_singleton.mp hq
      exact ⟨e.isWritable_typedPath, fun r hr => by cases hr⟩
  obtain ⟨tokens, hlex, htokens⟩ := Script.lex_chars hlegible
  have htext : String.ofList (Script.chars (Query.script [e.typedPath.item])) =
      (ElementValue.entity e).query := by
    rw [hscript, Entity.chars_typedPath, String.ofList_toList, ElementValue.query]
  rw [htext] at hlex
  obtain ⟨tree, nodes, hparse, hnodes, hitems⟩ := Query.parse_script (List.cons_ne_nil _ _)
    (fun i hi => by
      obtain rfl := List.mem_singleton.mp hi
      refine ⟨List.cons_ne_nil _ _, fun q hq r hr => ?_⟩
      obtain rfl := List.mem_singleton.mp hq
      cases hr) htokens
  obtain _ | ⟨⟨i, hread, hi⟩, ⟨⟩⟩ := hitems
  obtain ⟨hexclude, hsource, hmark, hphrases⟩ := Item.of_unplaced hi
  obtain ⟨phrase, rest, hphrase, hrest, hps⟩ := List.forall₂_cons_left_iff.mp hphrases
  rw [List.forall₂_nil_left_iff.mp hrest] at hps
  obtain ⟨hsubject, hrelation⟩ := Query.Phrase.of_unplaced hphrase
  have hparts := nameParts_of_unplaced hsubject
  rw [nameParts_typedPath] at hparts
  exact ⟨phrase.subject, ⟨tokens, tree, _, i, phrase, hlex, hparse, hnodes, hread, hexclude,
    hsource, hmark, hps, rfl, Option.map_eq_none_iff.mp hrelation⟩, hparts⟩

/-! ## The path means the entity -/

namespace Snapshot

variable {s : Snapshot} {e : Entity}

/-- The typed names of the ancestors lead to a node. -/
theorem addressMatches_typed {family : FlagFamily} (nodes : List (Node family))
    (node : Node family) : addressMatches nodes
      (((addressed nodes node).address.map NamePart.typed).map Matcher.ofPart) node = true := by
  have haddress : (addressed nodes node).address = (lineage nodes node).map Node.name :=
    List.map_reverse.symm
  rw [addressMatches_iff, haddress, List.map_map]
  refine ⟨lineage nodes node, List.Sublist.refl _, ?_⟩
  rw [List.forall₂_map_left_iff, List.forall₂_same]
  exact fun n _ => NamePart.fits_typed n.name n.otherNames

/-- What stands before the name of an entity in its path is where it is. -/
theorem exists_leading (h : e ∈ s.entities e.kind) : ∃ leading : List String,
    e.path = leading ++ [e.name] ∧
      s.isAt ((leading.map NamePart.typed).map Matcher.ofPart) e = true := by
  cases e with
  | tag t =>
    obtain ⟨n, _, hn⟩ := List.mem_map.mp h
    cases hn
    exact ⟨_, rfl, addressMatches_typed s.tags n⟩
  | topic t =>
    obtain ⟨n, _, hn⟩ := List.mem_map.mp h
    cases hn
    exact ⟨_, rfl, addressMatches_typed s.topics n⟩
  | author a => exact ⟨[], rfl, rfl⟩
  | sourceTag t => exact ⟨[t.site], rfl, NamePart.matchesOne_typed t.site⟩

theorem mem_byName_typed (h : e ∈ s.entities e.kind) :
    e ∈ s.byName e.kind (e.path.map NamePart.typed) := by
  obtain ⟨leading, hpath, hat⟩ := exists_leading h
  rw [hpath, List.map_append, List.map_singleton, byName_concat, mem_select_iff]
  exact ⟨h, hat, Matcher.matchesNames_ofPart_iff.mpr (NamePart.fits_typed e.name e.otherNames)⟩

/-- **The path of an entity is never unknown**; at most it is ambiguous, where one entity is asked
for. -/
theorem resolve_of_path (h : s.Returns e) {p : Path}
    (hparts : nameParts p = e.path.map NamePart.typed) :
    (∃ found, resolve s.lookup e.kind p = .ok found ∧ e ∈ found) ∨ ∃ count, 1 < count ∧
      resolve s.lookup e.kind p = .error ⟨.ambiguous e.kind.name p.joined count, p.range⟩ := by
  have hfound : e ∈ s.lookup.byName e.kind (nameParts p) :=
    hparts ▸ mem_byName_typed (returns_iff.mp h)
  have hlength : p.parts.length = e.path.length := by
    simpa [nameParts] using congrArg List.length hparts
  have hmax : ((maxParts? e.kind).any fun n => n < p.parts.length) = false := by
    rw [hlength]
    cases e <;> rfl
  have hnonempty : (s.lookup.byName e.kind (nameParts p)).isEmpty = false :=
    List.isEmpty_eq_false_iff.mpr (List.ne_nil_of_mem hfound)
  rw [resolve, if_neg (by rw [hmax]; decide)]
  simp only [hnonempty, Bool.false_eq_true, if_false]
  split
  case isTrue hmany =>
    rw [Bool.and_eq_true, decide_eq_true_iff] at hmany
    exact .inr ⟨_, hmany.2, rfl⟩
  case isFalse => exact .inl ⟨_, rfl, hfound⟩

/-- **The path of an entity finds it.** Whatever a snapshot answers with, the path it is written as
is read back as one path, and the entity with its address is among those of its kind that this path
means. Names may be patterns or stand for several entities, and parents may be missing or form a
ring. -/
theorem exists_isPath_byName (h : s.Returns e) :
    ∃ p, Query.IsPath (ElementValue.entity e).query p ∧ e ∈ s.byName e.kind (nameParts p) := by
  obtain ⟨p, hp, hparts⟩ := Query.exists_isPath e
  exact ⟨p, hp, hparts ▸ mem_byName_typed (returns_iff.mp h)⟩

/-- Two tags, each the parent of the other: `a*` and `Big cat`. -/
def ring : Snapshot :=
  ⟨[⟨1, "a*", [], some 2, .empty, []⟩, ⟨2, "Big cat", ["a*"], some 1, .empty, []⟩], [], [], []⟩

theorem exists_isPath_byName_ring :
    ring.byId .tag 1 = some (.tag ⟨1, "a*", [], some 2, .empty, ["a*", "Big cat"]⟩) ∧
      (ElementValue.entity (.tag ⟨1, "a*", [], some 2, .empty, ["a*", "Big cat"]⟩)).query =
        "a*.`Big cat`.a*" ∧
      ∃ p, Query.IsPath
          (ElementValue.entity (.tag ⟨1, "a*", [], some 2, .empty, ["a*", "Big cat"]⟩)).query p ∧
        .tag ⟨1, "a*", [], some 2, .empty, ["a*", "Big cat"]⟩ ∈ ring.byName .tag (nameParts p) :=
  ⟨by decide, by decide, exists_isPath_byName (@Returns.byId ring _ .tag 1 (by decide))⟩

end Snapshot

end PixQuery
