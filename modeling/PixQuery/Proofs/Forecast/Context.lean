import PixQuery.Proofs.Compile.Ranges
import PixQuery.Proofs.Forecast.Walk
import PixQuery.Proofs.Meaning.Spellings

/-!
# What is expected for the names of an item

The tokens in front of a name are those of the items before and of its own item up to the name. In
the first phrase of an item the signs in front tell what is expected. Behind a bar the walk through
the tokens looks for them, and has to stop where the item begins: it does at a mark, at signs and at
an ampersand, but where there is none of them it goes on in the item before, up to a relation or a
mark there.

Results:
* `Item.contextOfName_eq_iff`: when the kind of names that the item is about is expected.
* `Place.contextOfUnion_joined`: what the walk comes to where it goes on.
* `Place.contextBehind_upTo`: what is expected for a name of an item.
* `Place.contextBehind_value`: what is expected for a value depends on the word before the relation.
-/

namespace PixQuery

namespace Query

/-! ## What the walk comes to -/

/-- The kind of names that an item is about: that of its mark, or tags of sources behind a source
mark. -/
def Item.nameContext (i : Item) : ForecastContext :=
  match i.element.mark with
  | some m => .metadata (Analysis.markKind m)
  | none => if i.source then .metadata .sourceTag else .bare

/-- The relation that is the nearest to what stands behind some phrases. -/
def nearestRelation? (ps : List Phrase) : Option Relation := ps.reverse.findSome? Phrase.relation

/-- What the walk behind a bar comes to in a relation. A source mark before the last value is taken
for one of the item. -/
def Relation.unionContext : Relation → ForecastContext
  | binary _ (.values vs) _ =>
    if (vs.getLast?.map Value.source).getD false then .metadata .sourceTag else .bare
  | binary .. | unary .. => .bare

/-- What the walk behind a bar comes to at the front of an item: the kind of its names, if there is
a mark or a sign that tells it. -/
def Item.opening? (i : Item) : Option ForecastContext :=
  if i.element.mark.isSome || i.source || i.exclude then some i.nameContext else none

/-- What the walk behind a bar comes to, from behind some phrases of an item, when it comes to
`outside` in front of the item. -/
def Item.unionContext (i : Item) (ps : List Phrase) (outside : ForecastContext) : ForecastContext :=
  (((nearestRelation? ps).map Relation.unionContext).or i.opening?).getD outside

/-- What the walk behind a bar comes to in front of an item: an ampersand ends it, and otherwise it
goes on in the items before. -/
def carriedOver (js : List (Bool × Item)) (amp : Bool) : ForecastContext :=
  if amp then .bare
  else js.foldl (fun c j => j.2.unionContext j.2.element.phrases (if j.1 then .bare else c)) .bare

/-- What is expected for a name behind some phrases of an item. -/
def Item.contextOfName (js : List (Bool × Item)) (amp : Bool) (i : Item) (ps : List Phrase) :
    ForecastContext :=
  if ps.isEmpty then i.nameContext else i.unionContext ps (carriedOver js amp)

theorem Item.opening?_eq_none {i : Item} (h : i.opening? = none) : i.nameContext = .bare := by
  obtain ⟨exclude, source, ⟨mark, phrases, range⟩, range'⟩ := i
  match mark, source, h with
  | none, false, _ => rfl

theorem Item.opening?_eq_some {i : Item} {c : ForecastContext} (h : i.opening? = some c) :
    c = i.nameContext := by
  unfold Item.opening? at h
  split at h
  · exact (Option.some.inj h).symm
  · cases h

/-- **When the kind of names that the item is about is expected**: for the first phrase; behind a
relation when that is taken for the same kind; and otherwise when something stops the walk at the
front of the item, or nothing is carried over from the items before. -/
theorem Item.contextOfName_eq_iff {js : List (Bool × Item)} {amp : Bool} {i : Item}
    {ps : List Phrase} :
    i.contextOfName js amp ps = i.nameContext ↔ ps = [] ∨
      (∃ r, nearestRelation? ps = some r ∧ r.unionContext = i.nameContext) ∨
      (nearestRelation? ps = none ∧ (i.opening?.isSome ∨ carriedOver js amp = .bare)) := by
  cases ps with
  | nil => exact iff_of_true rfl (.inl rfl)
  | cons p ps =>
    rw [contextOfName, if_neg (by simp), unionContext]
    cases nearestRelation? (p :: ps) with
    | some r => simp
    | none =>
      cases hopening : i.opening? with
      | some c => simp [opening?_eq_some hopening]
      | none => simp [opening?_eq_none hopening]

/-- The paths of a relation that are taken for its values: all but the second end of a range without
brackets. -/
def Predicate.names : Predicate → List Path
  | values vs => vs.map Value.path
  | collection ps => ps
  | range r => r.first :: if r.brackets.isSome then [r.last] else []

/-- The paths of a phrase that are taken for values of its subject. -/
def Phrase.names (p : Phrase) : List Path :=
  match p.relation with
  | some (.binary _ predicate _) => predicate.names
  | some (.unary ..) | none => []

theorem exists_relation_of_mem_names {p : Phrase} {path : Path} (h : path ∈ p.names) :
    ∃ family predicate range, p.relation = some (.binary family predicate range) ∧
      path ∈ predicate.names := by
  unfold Phrase.names at h
  split at h
  · exact ⟨_, _, _, ‹_›, h⟩
  · cases h
  · cases h

end Query

namespace Place

open Query

variable {rest : List Token} {js : List (Bool × Item)} {i : Item}

theorem contextOfUnion_value (h : contextOfUnion rest = .bare) (v : Value) :
    contextOfUnion (behind v.script.lexemes ++ rest) =
      if v.source then .metadata .sourceTag else .bare := by
  rw [lexemes_value, behind_append, List.append_assoc, contextOfUnion_path]
  match v.direction, v.source with
  | none, false => exact h
  | none, true | some .ascending, false | some .ascending, true | some .descending, false
  | some .descending, true => rfl

theorem contextOfUnion_values (family : Family) (vs : List Value) (rest : List Token) :
    contextOfUnion (behind (.symbol family.symbol :: vs.flatMap fun v => v.script.lexemes ++
      [.symbol .comma]) ++ rest) = .bare := by
  rcases List.eq_nil_or_concat vs with rfl | ⟨init, v, rfl⟩
  · cases family <;> rfl
  · simp [contextOfUnion, Token.symbol?, markedKind?]

/-- **A relation stops the walk.** -/
theorem contextOfUnion_relation (r : Relation) (rest : List Token) :
    contextOfUnion (behind r.script.lexemes ++ rest) = r.unionContext := by
  match r with
  | .unary .ascending _ => rfl
  | .unary .descending _ => rfl
  | .binary family (.collection ps) _ =>
    rw [Relation.script, Predicate.script, Script.lexemes_sym, Script.lexemes_sym,
      Script.lexemes_append, behind_cons, behind_cons, behind_append]
    rfl
  | .binary family (.range ⟨first, last, none⟩) _ =>
    rw [Relation.script, Predicate.script, RangeLiteral.script, Script.lexemes_sym,
      Script.lexemes_append, Script.lexemes_sym, behind_cons, behind_append, behind_cons]
    simp only [List.append_assoc, contextOfUnion_path]
    rfl
  | .binary family (.range ⟨first, last, some ⟨_, closing⟩⟩) _ =>
    simp only [Relation.script, Predicate.script, RangeLiteral.script, Script.lexemes_sym,
      Script.lexemes_append, behind_cons, behind_append]
    cases closing <;> rfl
  | .binary family (.values vs) _ =>
    rcases List.eq_nil_or_concat vs with rfl | ⟨init, v, rfl⟩
    · exact contextOfUnion_values family [] rest
    · have hvalues := contextOfUnion_value (contextOfUnion_values family init rest) v
      rw [Relation.script, Predicate.script, List.concat_eq_append, List.map_append,
        List.map_singleton, Script.lexemes_sym, lexemes_separated_append, List.flatMap_map]
      simpa [Relation.unionContext] using hvalues

theorem contextOfUnion_phrase (p : Phrase) (rest : List Token) :
    contextOfUnion (behind p.script.lexemes ++ rest) =
      (p.relation.map Relation.unionContext).getD (contextOfUnion rest) := by
  rw [Phrase.script, Script.lexemes_append, behind_append, List.append_assoc]
  cases p.relation with
  | none => exact contextOfUnion_path p.subject rest
  | some r => exact contextOfUnion_relation r _

theorem contextOfUnion_phrases : ∀ (ps : List Phrase) (rest : List Token),
    contextOfUnion (behind (ps.flatMap fun p => p.script.lexemes ++ [.symbol .pipe]) ++ rest) =
      ((nearestRelation? ps).map Relation.unionContext).getD (contextOfUnion rest)
  | [], _ => rfl
  | p :: ps, rest => by
    rw [List.flatMap_cons, behind_append, List.append_assoc, contextOfUnion_phrases ps,
      behind_append, List.append_assoc]
    have hpipe : ∀ rest, contextOfUnion (behind [.symbol .pipe] ++ rest) = contextOfUnion rest :=
      fun _ => rfl
    rw [hpipe, contextOfUnion_phrase, nearestRelation?, nearestRelation?, List.reverse_cons,
      List.findSome?_append]
    cases ps.reverse.findSome? Phrase.relation <;> simp

theorem contextOfUnion_itemMarks (exclude source : Bool) (rest : List Token) :
    contextOfUnion (behind ((itemMarks exclude source).map .symbol) ++ rest) =
      if source then .metadata .sourceTag else if exclude then .bare else contextOfUnion rest := by
  cases exclude <;> cases source <;> rfl

/-- **What the walk behind a bar comes to in an item.** -/
theorem contextOfUnion_upTo (i : Item) (ps : List Phrase) (rest : List Token) :
    contextOfUnion (behind (i.upTo ps) ++ rest) = i.unionContext ps (contextOfUnion rest) := by
  have hfront : contextOfUnion (behind ((i.element.mark.map Mark.symbol).toList.map .symbol) ++
      (behind ((itemMarks i.exclude i.source).map .symbol) ++ rest)) =
        i.opening?.getD (contextOfUnion rest) := by
    unfold Item.opening? Item.nameContext
    match i.element.mark with
    | some .author | some .topic | some .tag => rfl
    | none =>
      rw [Option.map_none, Option.toList_none, List.map_nil, behind_nil, List.nil_append,
        contextOfUnion_itemMarks]
      cases i.source <;> cases i.exclude <;> rfl
  rw [Item.upTo, behind_append, behind_append, List.append_assoc, List.append_assoc,
    contextOfUnion_phrases, hfront, Item.unionContext]
  cases nearestRelation? ps <;> rfl

/-- **What the walk behind a bar comes to in front of an item.** -/
theorem contextOfUnion_joined (h : ∀ j ∈ js, j.2.element.phrases ≠ []) (amp : Bool) :
    contextOfUnion (behind (joined js ++ joint amp)) = carriedOver js amp := by
  -- the walk comes to the last item first
  induction js using List.reverseRecOn generalizing amp with
  | nil => cases amp <;> rfl
  | append_singleton js j ih =>
    obtain ⟨amp', i⟩ := j
    cases amp with
    | true =>
      rw [behind_append]
      rfl
    | false =>
      have hi := upTo_phrases (i := i) (h (amp', i) (by simp))
      have hjs := ih (fun j hj => h j (List.mem_append_left _ hj)) amp'
      have hwalk : contextOfUnion (behind i.script.lexemes ++ behind (joined js ++ joint amp')) =
          contextOfUnion (behind (i.upTo i.element.phrases) ++
            behind (joined js ++ joint amp')) := by
        rw [hi, behind_append _ [.symbol .pipe], List.append_assoc]
        rfl
      rw [contextOfUnion_upTo, hjs] at hwalk
      rw [joined_concat]
      simpa [joint, carriedOver] using hwalk

theorem nearestSymbol?_upTo (i : Item) (ps : List Phrase) (rest : List Token) :
    nearestSymbol? (behind (i.upTo ps) ++ rest) =
      (((if ps.isEmpty then none else some .pipe).or (i.element.mark.map Mark.symbol)).or
        (if i.source then some .caret else if i.exclude then some .minus else none)).or
          (nearestSymbol? rest) := by
  rw [Item.upTo, behind_append, behind_append]
  rcases List.eq_nil_or_concat ps with rfl | ⟨init, p, rfl⟩
  · cases i.element.mark with
    | some m => rfl
    | none => cases i.exclude <;> cases i.source <;> rfl
  · simp [nearestSymbol?, Token.symbol?]

/-! ## Names of an item -/

/-- No path goes on in front of an item or of one of its phrases. -/
theorem nearestSymbol?_upTo_ne_dot (h : Ends rest) (i : Item) (ps : List Phrase) :
    nearestSymbol? (behind (i.upTo ps) ++ rest) ≠ some .dot := by
  rw [nearestSymbol?_upTo]
  intro hdot
  rcases Option.or_eq_some_iff.mp hdot with hfront | ⟨-, hrest⟩
  · revert hfront
    cases ps.isEmpty
    · simp
    · cases i.element.mark with
      | some m => cases m <;> simp [Mark.symbol]
      | none => cases i.source <;> cases i.exclude <;> simp
  · cases h _ hrest

/-- Behind a mark of an element names of its kind are expected. -/
theorem contextBehind_mark (m : Mark) (range : Span) (rest : List Token) :
    contextBehind (⟨.symbol m.symbol, range⟩ :: rest) = some (.metadata (Analysis.markKind m)) := by
  cases m <;> rfl

theorem contextBehind_itemMarks (h : Ends rest) (exclude source : Bool) :
    contextBehind (behind ((itemMarks exclude source).map .symbol) ++ rest) =
      some (if source then .metadata .sourceTag else .bare) := by
  have hmarks : nearestSymbol? rest ∉ [some .caret, some .plus, some .minus] := by
    simp only [List.mem_cons, List.not_mem_nil, or_false, not_or]
    exact ⟨fun hs => absurd (h _ hs) (by decide), fun hs => absurd (h _ hs) (by decide),
      fun hs => absurd (h _ hs) (by decide)⟩
  rw [contextBehind, itemMarks_eq_signs, dropMarks_signs hmarks]
  cases hnearest : nearestSymbol? rest with
  | none => simp [hnearest]
  | some s =>
    have hs := h s hnearest
    cases s <;> first
      | exact absurd hs (by decide)
      | simp [hnearest, opensValue, isRelation, markedKind?]

/-- **What is expected for a name of an item.** -/
theorem contextBehind_upTo (h : ∀ j ∈ js, j.2.IsComplete) (amp : Bool) (i : Item)
    (ps : List Phrase) :
    contextBehind (behind (i.upTo ps) ++ behind (joined js ++ joint amp)) =
      some (i.contextOfName js amp ps) := by
  have hends := ends_joined h amp
  rcases List.eq_nil_or_concat ps with rfl | ⟨init, p, rfl⟩
  · show _ = some i.nameContext
    rw [Item.upTo, List.flatMap_nil, List.append_nil, Item.nameContext, behind_append]
    cases i.element.mark with
    | none => exact contextBehind_itemMarks hends i.exclude i.source
    | some m => exact contextBehind_mark m _ _
  · have hwalk := contextOfUnion_upTo i (init ++ [p]) (behind (joined js ++ joint amp))
    rw [contextOfUnion_joined fun j hj => (h j hj).1] at hwalk
    rw [upTo_concat, behind_append, List.append_assoc] at hwalk
    rw [List.concat_eq_append, upTo_concat, behind_append, List.append_assoc, Item.contextOfName,
      if_neg (by simp), ← hwalk]
    rfl

/-! ## Names in values -/

/-- What may stand between a relation and the signs of one of its values: a bracket, and the values
before it with their commas. -/
structure LeadsToValue (inner : List Lexeme) : Prop where
  inside : ∀ l ∈ inner, IsInside l
  last : inner = [] ∨
    ∃ init s, inner = init ++ [.symbol s] ∧ s ∈ [.comma, .lBrace, .lBracket, .lParen]

theorem isInside_path {p : Path} {l : Lexeme} (h : l ∈ p.script.lexemes) : IsInside l := by
  rcases mem_lexemes_path h with h | rfl
  · exact .inl h
  · exact .inr ⟨.dot, rfl, rfl, rfl⟩

theorem isInside_signs : ∀ (direction : Option Direction) (source : Bool),
    ∀ s ∈ signs direction source, isRelation s = false ∧ isInsideValues s = true
  | none, false | none, true | some .ascending, false | some .ascending, true
  | some .descending, false | some .descending, true => by decide

theorem isInside_value {v : Value} {l : Lexeme} (h : l ∈ v.script.lexemes) : IsInside l := by
  rw [lexemes_value, List.mem_append, List.mem_map] at h
  rcases h with ⟨s, hs, rfl⟩ | h
  · exact .inr ⟨s, rfl, isInside_signs v.direction v.source s hs⟩
  · exact isInside_path h

/-- Members with commas behind them, behind what may stand among values. -/
theorem leadsToValue_members {α : Type} {l : α → List Lexeme} (as : List α)
    (h : ∀ a, ∀ x ∈ l a, IsInside x) :
    LeadsToValue (as.flatMap fun a => l a ++ [.symbol .comma]) where
  inside := by
    intro x hx
    obtain ⟨a, -, hx⟩ := List.mem_flatMap.mp hx
    rcases List.mem_append.mp hx with hx | hx
    · exact h a x hx
    · obtain rfl := List.mem_singleton.mp hx
      exact .inr ⟨.comma, rfl, rfl, rfl⟩
  last := by
    rcases List.eq_nil_or_concat as with rfl | ⟨init, a, rfl⟩
    · exact .inl rfl
    · exact .inr ⟨(init.flatMap fun a => l a ++ [.symbol .comma]) ++ l a, .comma, by simp,
        by decide⟩

theorem LeadsToValue.cons {inner : List Lexeme} (h : LeadsToValue inner) {u : Symbol}
    (hu : u ∈ [.comma, .lBrace, .lBracket, .lParen]) : LeadsToValue (.symbol u :: inner) where
  inside := by
    refine List.forall_mem_cons.mpr ⟨.inr ⟨u, rfl, ?_⟩, h.inside⟩
    revert u
    decide
  last := by
    rcases h.last with rfl | ⟨init, s, rfl, hs⟩
    · exact .inr ⟨[], u, rfl, hu⟩
    · exact .inr ⟨.symbol u :: init, s, rfl, hs⟩

theorem leadsToValue_opening (brackets : Option Brackets) {inner : List Lexeme}
    (h : LeadsToValue inner) : LeadsToValue ((openingOf brackets).map .symbol ++ inner) := by
  cases brackets with
  | none => exact h
  | some b =>
    have hopening : ∀ b : Bool, (if b then Symbol.lBracket else .lParen) ∈
      [.comma, .lBrace, .lBracket, .lParen] := by decide
    exact h.cons (hopening b.includeBegin)

/-- **A string of a name** stands behind values and signs. -/
theorem exists_standsIn_name {predicate : Predicate} {path : Path} (hpath : path ∈ predicate.names)
    {q : Query.Part} {xs ys : List Query.Part} (hq : path.parts = xs ++ q :: ys) :
    ∃ inner direction source, LeadsToValue inner ∧
      StandsIn q (inner ++ ((signs direction source).map .symbol ++ points xs))
        predicate.script.lexemes predicate.parts := by
  match predicate, hpath with
  | .values vs, hpath =>
    obtain ⟨v, hv, rfl⟩ := List.mem_map.mp hpath
    obtain ⟨as, bs, rfl⟩ := List.append_of_mem hv
    exact ⟨_, v.direction, v.source, leadsToValue_members as fun _ _ => isInside_value,
      standsIn_values hq⟩
  | .collection ps, hpath =>
    obtain ⟨as, bs, rfl⟩ := List.append_of_mem hpath
    exact ⟨_, none, false, (leadsToValue_members as fun _ _ => isInside_path).cons (by decide),
      standsIn_collection hq⟩
  | .range ⟨first, last, brackets⟩, hpath =>
    rcases List.mem_cons.mp hpath with rfl | hpath
    · have hleads : LeadsToValue [] := ⟨fun _ hl => (by cases hl), .inl rfl⟩
      refine ⟨_, none, false, leadsToValue_opening brackets hleads, ?_⟩
      simpa [signs] using standsIn_first last brackets hq
    · obtain ⟨b, rfl, rfl⟩ : ∃ b, brackets = some b ∧ path = last := by
        cases brackets with
        | none => cases hpath
        | some b => exact ⟨b, rfl, List.mem_singleton.mp hpath⟩
      have hleads := leadsToValue_members [first] fun p _ => isInside_path (p := p)
      refine ⟨_, none, false, leadsToValue_opening (some b) hleads, ?_⟩
      have hstands := standsIn_last first (some b) hq
      rw [if_pos (by rfl)] at hstands
      simpa [signs] using hstands

/-- The relation, a comma or a brace is what stands before the signs of a value. -/
theorem LeadsToValue.exists_nearest {inner : List Lexeme} (h : LeadsToValue inner) (family : Family)
    (rest : List Token) :
    ∃ s, nearestSymbol? (behind (.symbol family.symbol :: inner) ++ rest) = some s ∧
      opensValue s = true ∧ some s ∉ [some .caret, some .plus, some .minus, some .dot] := by
  rcases h.last with rfl | ⟨init, s, rfl, hs⟩
  · exact ⟨family.symbol, rfl, by cases family <;> decide⟩
  · refine ⟨s, by simp [nearestSymbol?, Token.symbol?], ?_⟩
    clear h
    revert s
    decide

theorem contextOfValues?_append {inner : List Lexeme} (h : LeadsToValue inner) (family : Family)
    (rest : List Token) (source : Bool) :
    contextOfValues? (behind (.symbol family.symbol :: inner) ++ rest) source =
      (subject? rest).bind fun s => contextOfField? s.1 s.2 source := by
  have hrelation : beforeRelation? (⟨.symbol family.symbol, .point 0⟩ :: rest) = some rest := by
    cases family <;> rfl
  rw [contextOfValues?, behind_cons, List.append_assoc, beforeRelation?_append h.inside,
    List.singleton_append, hrelation]
  rfl

/-- **What is expected for a value**, whatever its signs are. -/
theorem contextBehind_value {inner : List Lexeme} (h : LeadsToValue inner) (family : Family)
    (direction : Option Direction) (source : Bool) (rest : List Token) :
    contextBehind (behind ((signs direction source).map .symbol) ++
        (behind (.symbol family.symbol :: inner) ++ rest)) =
      (subject? rest).bind fun s => contextOfField? s.1 s.2 source := by
  obtain ⟨s, hs, hopens, hne⟩ := h.exists_nearest family rest
  rw [← hs] at hne
  have hmarks : nearestSymbol? (behind (.symbol family.symbol :: inner) ++ rest) ∉
      [some .caret, some .plus, some .minus] := fun hmem => hne (List.mem_append_left [_] hmem)
  rw [contextBehind, dropMarks_signs hmarks]
  simp only [hs, hopens, if_true, contextOfValues?_append h]

/-- No path goes on in front of the path of a value. -/
theorem LeadsToValue.nearest_ne_dot {inner : List Lexeme} (h : LeadsToValue inner) (family : Family)
    (direction : Option Direction) (source : Bool) (rest : List Token) :
    nearestSymbol? (behind ((signs direction source).map .symbol) ++
      (behind (.symbol family.symbol :: inner) ++ rest)) ≠ some .dot := by
  match direction, source with
  | none, false =>
    obtain ⟨s, hs, -, hne⟩ := h.exists_nearest family rest
    intro hdot
    obtain rfl : s = .dot := Option.some.inj (hs.symm.trans hdot)
    exact hne (by decide)
  | none, true | some .ascending, false | some .ascending, true | some .descending, false
  | some .descending, true => exact fun hdot => by cases hdot

/-- The subject of a relation, with the source mark only in the first phrase of an item. -/
theorem subject?_upTo (hmark : i.element.mark = none) (h : Ends rest) (ps : List Phrase)
    (word : String) (range : Span) :
    subject? (⟨.string word .word, range⟩ :: (behind (i.upTo ps) ++ rest)) =
      some (word, i.source && ps.isEmpty) := by
  rw [subject?, nearestSymbol?_upTo, hmark]
  cases ps.isEmpty with
  | false => simp
  | true =>
    cases i.source with
    | true => rfl
    | false =>
      cases i.exclude with
      | true => rfl
      | false =>
        cases hrest : nearestSymbol? rest with
        | none => rfl
        | some s =>
          have hs := h s hrest
          cases s <;> first | rfl | exact absurd hs (by decide)

end Place

end PixQuery
