import PixQuery.Proofs.Forecast.Context
import PixQuery.Proofs.Forecast.Ranking

/-!
# Forecasts for the names of a text

With the cursor at the end of a name, a forecast should complete names of the kind that analysis
looks the name up in. In the first phrase of an item it does, and for the values of a field of
names. Behind a bar it does where something stops its walk in the item; in `@ann sun|moon` nothing
does, and `moon` is completed as the name of an author. A field behind a bar in an item with the
source mark is taken for one without it.

Results:
* `Place.at?_stop`: the string that ends at the cursor is the one that the cursor is at.
* `Place.contextOfField?_of_find?`: what is expected among the values of a field of names.
* `Compiler.map_context_forecast`: the forecast at the end of a string is told by what is written in
  front of it.
* `Compiler.forecast_names`: what is expected at the end of each name of a text.
-/

namespace PixQuery

open Query

theorem Span.touches_between (a b n : Nat) : (between a b).touches n = true ↔ a ≤ n ∧ n ≤ b := by
  rw [touches, Bool.and_eq_true, decide_eq_true_iff, decide_eq_true_iff]
  rfl

namespace Place

/-! ## The string at a cursor -/

theorem allFrom_append (before ts us : List Token) :
    allFrom before (ts ++ us) = allFrom before ts ++ allFrom (ts.reverse ++ before) us := by
  induction ts generalizing before with
  | nil => rfl
  | cons t ts ih =>
    rw [List.cons_append, List.reverse_cons, List.append_assoc, List.singleton_append]
    cases h : t.string? with
    | none => simp only [allFrom, h, ih]
    | some s => simp only [allFrom, h, ih, List.cons_append]

theorem exists_of_mem_allFrom {p : Place} {ts : List Token} : ∀ {before : List Token},
    p ∈ allFrom before ts → ∃ t ∈ ts, p.range = t.range := by
  induction ts with
  | nil => exact fun h => by cases h
  | cons t ts ih =>
    intro before h
    cases hs : t.string? with
    | none =>
      simp only [allFrom, hs] at h
      obtain ⟨u, hu, hrange⟩ := ih h
      exact ⟨u, .tail _ hu, hrange⟩
    | some s =>
      simp only [allFrom, hs, List.mem_cons] at h
      rcases h with rfl | h
      · exact ⟨t, .head _, rfl⟩
      · obtain ⟨u, hu, hrange⟩ := ih h
        exact ⟨u, .tail _ hu, hrange⟩

/-- **The string that ends at the cursor** is the one that the cursor is at. -/
theorem at?_stop {ts us : List Token} {value : String} {kind : StringKind} {range outer : Span}
    (horder : InOrder (ts ++ ⟨.string value kind, range⟩ :: us))
    (hlies : ∀ t ∈ ts ++ ⟨.string value kind, range⟩ :: us, t.range.LiesIn outer) :
    at? (ts ++ ⟨.string value kind, range⟩ :: us) range.stopOrNext =
      some ⟨value, kind, range, ts.reverse⟩ := by
  obtain ⟨a, b, rfl, -, hab, -⟩ := hlies ⟨.string value kind, range⟩ (by simp)
  -- a string before ends where this one begins at the latest, and this one is not empty
  have hbefore : ∀ p ∈ allFrom [] ts, ¬ (p.range.touches b = true) := by
    intro p hp
    obtain ⟨t, ht, hrange⟩ := exists_of_mem_allFrom hp
    obtain ⟨c, d, hcd, -, -, -⟩ := hlies t (List.mem_append_left _ ht)
    have hstop : t.stop ≤ a := (List.pairwise_append.mp horder.apart).2.2 t ht _ (.head _)
    rw [Token.stop, hcd, Span.stopOrNext_between] at hstop
    rw [hrange, hcd, Span.touches_between]
    omega
  have htouches : (Span.between a b).touches b = true :=
    (Span.touches_between a b b).mpr ⟨Nat.le_of_lt hab, Nat.le_refl b⟩
  simp only [at?, allFrom_append, List.filter_append, Span.stopOrNext_between,
    List.filter_eq_nil_iff.mpr hbefore, allFrom, Token.string?, List.append_nil, List.nil_append]
  rw [List.filter_cons_of_pos (by exact htouches),
    List.find?_cons_of_pos (by exact decide_eq_true hab)]
  rfl

end Place

/-- What is expected for a string where `c` is, if it is completed: free text is not. -/
def Query.Part.offered? (q : Query.Part) (c : ForecastContext) : Option ForecastContext :=
  if c = .bare ∧ q.kind.isText then none else some c

theorem Query.Part.offered?_metadata (q : Query.Part) (kind : Kind) :
    q.offered? (.metadata kind) = some (.metadata kind) := if_neg fun h => by cases h.1

theorem Query.Part.offered?_inj {q : Query.Part} {c c' : ForecastContext} :
    q.offered? c = q.offered? c' ↔ c = c' := by
  refine ⟨fun h => ?_, congrArg q.offered?⟩
  unfold offered? at h
  split at h
  · split at h
    · exact (And.left ‹c = .bare ∧ _›).trans (And.left ‹c' = .bare ∧ _›).symm
    · cases h
  · split at h
    · cases h
    · exact Option.some.inj h

namespace Forecast

theorem map_context_of? {lookup : Lookup} {options : CompilerOptions} {tokens : List Token}
    {cursor : Nat} {p : Place} {c : ForecastContext} (hp : Place.at? tokens cursor = some p)
    (hc : p.context? = some c) : (of? lookup options tokens cursor).map Forecast.context =
      if c = .bare ∧ p.kind.isText then none else some c := by
  simp only [of?, hp, hc, Option.bind_eq_bind, Option.bind_some]
  split <;> rfl

end Forecast

/-! ## Fields of names -/

/-- Names are found without regard to case. -/
theorem find?_congr {κ : Type} (table : List (AliasEntry κ)) {word word' : String}
    (h : word.toList.map Char.toLower = word'.toList.map Char.toLower) (source : Bool) :
    AliasEntry.find? table word source = AliasEntry.find? table word' source := by
  have hsame : ∀ a : Alias, a.isTyped word source = a.isTyped word' source := fun a => by
    simp only [Alias.isTyped, Text.sameAscii, h]
  simp only [AliasEntry.find?, hsame]

/-- The one field of names with a source mark is that of tags, which is one without it too. -/
theorem find?_of_source {word : String} {kind : Kind}
    (h : AliasEntry.find? Kind.names word true = some kind) :
    AliasEntry.find? Kind.names word false = some .tag := by
  cases htag : Text.sameAscii "tag" word with
  | true =>
    rw [find?_congr Kind.names (eq_of_beq htag).symm]
    decide
  | false =>
    simp [AliasEntry.find?, Kind.names, named, AliasEntry.names, Alias.isTyped, Alias.plain,
      Alias.sourced, htag] at h

/-- What is expected among the values of a field of names. In the first phrase it is the kind that
the field is of; behind a bar the source mark of the item does not count. -/
theorem Place.contextOfField?_of_find? {word : String} {kind : Kind} {source : Bool}
    (first valueSource : Bool) (h : AliasEntry.find? Kind.names word source = some kind) :
    Place.contextOfField? word (source && first) valueSource =
      some (.metadata (if source && !first then .tag else kind)) := by
  have hplain : ∀ {kind}, AliasEntry.find? Kind.names word false = some kind →
      Place.contextOfField? word false valueSource = some (.metadata kind) := fun hfind => by
    simp [Place.contextOfField?, hfind, Analysis.not_isTyped_of_find? hfind]
  match source, first with
  | false, _ => exact hplain h
  | true, false => exact hplain (find?_of_source h)
  | true, true => simp [Place.contextOfField?, h]

theorem lexemes_of_subjectWord? {p : Phrase} {word : String}
    (h : Analysis.subjectWord? p = some word) :
    p.subject.script.lexemes = [.string word .word] := by
  obtain ⟨⟨⟨value, kind, range⟩, others⟩, relation, range'⟩ := p
  cases others with
  | cons => cases h
  | nil =>
    cases kind with
    | word =>
      obtain rfl : value = word := Option.some.inj h
      rfl
    | apostrophe | doubleQuotes | backticks => cases h

theorem classifyName_ne_elementField (p : Phrase) (source : Bool) (kind : Kind) :
    Analysis.classifyName p source ≠ .ok (.elementField kind) := by
  unfold Analysis.classifyName
  split
  · split <;> simp
  · split
    · split <;> simp
    · simp

theorem find?_of_classifyWord {p : Phrase} {source : Bool} {word : String} {kind : Kind}
    (h : Analysis.classifyWord p source word = .ok (some (.elementField kind))) :
    AliasEntry.find? Kind.names word source = some kind := by
  unfold Analysis.classifyWord at h
  split at h
  · cases h
  · simp only at h
    split at h
    · rename_i hkind
      split at hkind
      · cases h
        exact hkind
      · cases hkind
    · cases h
    · split at h <;> cases h

/-- A field of names is a bare word that is one of its names, with or without the source mark. -/
theorem exists_word_of_classify {p : Phrase} {source : Bool} {kind : Kind}
    (h : Analysis.classify source p = .ok (.elementField kind)) :
    ∃ word, p.subject.script.lexemes = [.string word .word] ∧
      AliasEntry.find? Kind.names word source = some kind := by
  unfold Analysis.classify at h
  cases hword : Analysis.subjectWord? p with
  | none =>
    rw [hword] at h
    exact absurd h (classifyName_ne_elementField p source kind)
  | some word =>
    rw [hword] at h
    obtain ⟨said, hsaid, h⟩ := Understood.exists_of_bind h
    cases said with
    | none => exact absurd h (classifyName_ne_elementField p source kind)
    | some s =>
      obtain rfl : s = .elementField kind := Except.ok.inj h
      exact ⟨word, lexemes_of_subjectWord? hword, find?_of_classifyWord hsaid⟩

/-! ## Names of a text -/

namespace Compiler

variable {options : CompilerOptions} {lookup : Lookup} {text : String}

/-- The items that are read from a text, and whether an ampersand stands before each. -/
def joinedItems (c : Compiler) (text : String) : List (Bool × Item) :=
  match (c.parsed text).result with
  | some root => Query.joinedItems root
  | none => []

/-- The items are complete, and with what joins them they are written as the tokens. -/
theorem spelledAs_joinedItems {before after : List (Bool × Item)} {j : Bool × Item}
    (hj : (ofOptions options).joinedItems text = before ++ j :: after) :
    (∀ j ∈ before, j.2.IsComplete) ∧
      SpelledAs ((ofOptions options).tokens text) (joined (before ++ j :: after))
        ((before ++ j :: after).flatMap fun j => j.2.parts) := by
  cases h : ((ofOptions options).parsed text).result with
  | none =>
    rw [joinedItems, h] at hj
    exact absurd hj.symm (by simp)
  | some root =>
    obtain ⟨hderivation, -, htokens, hsymbol⟩ := derived_parsed h
    obtain ⟨⟨nodes, -, hitems⟩, hspelled⟩ := exists_joints ⟨hderivation, hsymbol⟩
    simp only [joinedItems, h] at hj
    rw [hj] at hitems hspelled
    refine ⟨fun j hj => ?_, htokens ▸ hspelled⟩
    obtain ⟨n, -, hn⟩ := Understood.exists_of_mem_mapM hitems j.2
      (List.mem_map_of_mem (List.mem_append_left _ hj))
    exact isComplete_of_readItem hn

/-- **What is expected at the end of a string** is told by what is written in front of its path. -/
theorem map_context_forecast (base : List Lexeme) {xs : List Query.Part} {q : Query.Part}
    {c : ForecastContext} {js : List (Bool × Item)}
    (hspelled : SpelledAs ((ofOptions options).tokens text) (joined js)
      (js.flatMap fun j => j.2.parts))
    (h : StandsIn q (base ++ points xs) (joined js) (js.flatMap fun j => j.2.parts))
    (hdot : Place.nearestSymbol? (Place.behind base) ≠ some .dot)
    (hc : Place.contextBehind (Place.behind base) = some c) :
    ((ofOptions options).forecast lookup text q.range.stopOrNext).map Forecast.context =
      q.offered? c := by
  obtain ⟨ts, us, htokens, hts⟩ := h.exists_token hspelled
  have hlex := lex_result (ofOptions options) text
  have hat : Place.at? ((ofOptions options).tokens text) q.range.stopOrNext =
      some ⟨q.value, q.kind, q.range, ts.reverse⟩ := by
    rw [htokens]
    exact Place.at?_stop (htokens ▸ inOrder_of_lex hlex) (htokens ▸ liesIn_of_lex hlex)
  -- with bars for slashes the tokens before are those of `base` and of the path in front of `q`
  have hcontext : Place.context? ⟨q.value, q.kind, q.range, ts.reverse⟩ = some c := by
    rw [Place.context?_eq, ← Place.contextBehind_barred, ← Place.splitPath_barred,
      Place.behind_eq hts, Place.behind_append, Place.splitPath_points,
      Place.splitPath_of_nearest hdot, hc]
  rw [forecast, hlex]
  exact Forecast.map_context_of? hat hcontext

variable {before after : List (Bool × Item)} {amp : Bool} {i : Item} {ps qs : List Phrase}
  {p : Phrase} {q : Query.Part}

/-- What is expected for a string of a subject. -/
theorem map_context_subject (lookup : Lookup)
    (h : (ofOptions options).joinedItems text = before ++ (amp, i) :: after)
    (hp : i.element.phrases = ps ++ p :: qs) (hq : q ∈ p.subject.parts) :
    ((ofOptions options).forecast lookup text q.range.stopOrNext).map Forecast.context =
      q.offered? (i.contextOfName before amp ps) := by
  obtain ⟨hcomplete, hspelled⟩ := spelledAs_joinedItems h
  obtain ⟨xs, ys, hparts⟩ := List.append_of_mem hq
  have hstands := ((standsIn_subject hparts).phrase hp).item before after amp
  have hbehind : Place.behind (joined before ++ (joint amp ++ i.upTo ps)) =
      Place.behind (i.upTo ps) ++ Place.behind (joined before ++ joint amp) := by simp
  refine map_context_forecast (joined before ++ (joint amp ++ i.upTo ps)) hspelled
    (by simpa using hstands) ?_ ?_
  · rw [hbehind]
    exact Place.nearestSymbol?_upTo_ne_dot (Place.ends_joined hcomplete amp) i ps
  · rw [hbehind]
    exact Place.contextBehind_upTo hcomplete amp i ps

/-- What is expected for a string of a value of a field of names. -/
theorem map_context_name (h : (ofOptions options).joinedItems text = before ++ (amp, i) :: after)
    (hp : i.element.phrases = ps ++ p :: qs) {kind : Kind} (hmark : i.element.mark = none)
    (hkind : Analysis.classify i.source p = .ok (.elementField kind)) {path : Path}
    (hpath : path ∈ p.names) (hq : q ∈ path.parts) :
    ((ofOptions options).forecast lookup text q.range.stopOrNext).map Forecast.context =
      some (.metadata (if i.source && !ps.isEmpty then .tag else kind)) := by
  obtain ⟨hcomplete, hspelled⟩ := spelledAs_joinedItems h
  obtain ⟨word, hword, hfind⟩ := exists_word_of_classify hkind
  obtain ⟨family, predicate, range, hrelation, hpath⟩ := exists_relation_of_mem_names hpath
  obtain ⟨xs, ys, hparts⟩ := List.append_of_mem hq
  obtain ⟨inner, direction, source, hleads, hstands⟩ := Place.exists_standsIn_name hpath hparts
  replace hstands := ((hstands.predicate hrelation).phrase hp).item before after amp
  rw [hword] at hstands
  have hbehind : Place.behind (joined before ++ (joint amp ++ (i.upTo ps ++ ([.string word .word] ++
      (.symbol family.symbol :: inner ++ (signs direction source).map .symbol))))) =
        Place.behind ((signs direction source).map .symbol) ++
          (Place.behind (.symbol family.symbol :: inner) ++ (⟨.string word .word, .point 0⟩ ::
            (Place.behind (i.upTo ps) ++ Place.behind (joined before ++ joint amp)))) := by simp
  rw [← q.offered?_metadata]
  refine map_context_forecast (joined before ++ (joint amp ++ (i.upTo ps ++ ([.string word .word] ++
      (.symbol family.symbol :: inner ++ (signs direction source).map .symbol))))) hspelled
    (by simpa using hstands) ?_ ?_
  · rw [hbehind]
    exact hleads.nearest_ne_dot family direction source _
  · rw [hbehind, Place.contextBehind_value hleads,
      Place.subject?_upTo hmark (Place.ends_joined hcomplete amp)]
    exact Place.contextOfField?_of_find? ps.isEmpty source hfind

/-- The second end of a range without brackets is no value of a field: two points stand before
it. -/
theorem map_context_last (h : (ofOptions options).joinedItems text = before ++ (amp, i) :: after)
    (hp : i.element.phrases = ps ++ p :: qs) {family : Family} {first last : Path} {range : Span}
    (hrelation : p.relation = some (.binary family (.range ⟨first, last, none⟩) range))
    (hq : q ∈ last.parts) :
    ((ofOptions options).forecast lookup text q.range.stopOrNext).map Forecast.context =
      q.offered? .bare := by
  obtain ⟨-, hspelled⟩ := spelledAs_joinedItems h
  obtain ⟨xs, ys, hparts⟩ := List.append_of_mem hq
  have hstands :=
    (((standsIn_last first none hparts).predicate hrelation).phrase hp).item before after amp
  refine map_context_forecast (joined before ++ (joint amp ++ (i.upTo ps ++
    (p.subject.script.lexemes ++ (.symbol family.symbol ::
      (first.script.lexemes ++ [.symbol .dotDot])))))) hspelled
    (by simpa [openingOf] using hstands) ?_ ?_
  · simp [Place.nearestSymbol?, Token.symbol?]
  · simp only [Place.behind_append, Place.behind_cons, List.append_assoc]
    rfl

/-- **What is expected at the end of a name.** Take any text, and in it an item with the items
before it, and a phrase of the item with the phrases before it.

At the end of a string of the subject the kind of names that the item is about is expected exactly
when the phrase is the first, or the nearest relation before it is taken for that kind, or there is
no relation before it and the item begins with a mark, a sign or an ampersand or nothing is carried
over from the items before. In every case it is known what is expected.

At the end of a value of a field of names the kind of the field is expected, but for a field behind
a bar in an item with the source mark, which is read without the mark. The second end of a range
without brackets is taken for a name. -/
theorem forecast_names (options : CompilerOptions) (lookup : Lookup) (text : String)
    {before after : List (Bool × Item)} {amp : Bool} {i : Item} {ps qs : List Phrase} {p : Phrase}
    (h : (ofOptions options).joinedItems text = before ++ (amp, i) :: after)
    (hp : i.element.phrases = ps ++ p :: qs) :
    (∀ q ∈ p.subject.parts,
      ((ofOptions options).forecast lookup text q.range.stopOrNext).map Forecast.context =
          q.offered? (i.contextOfName before amp ps) ∧
      (((ofOptions options).forecast lookup text q.range.stopOrNext).map Forecast.context =
          q.offered? i.nameContext ↔ ps = [] ∨
        (∃ r, nearestRelation? ps = some r ∧ r.unionContext = i.nameContext) ∨
        (nearestRelation? ps = none ∧ (i.opening?.isSome ∨ carriedOver before amp = .bare)))) ∧
    (∀ kind, i.element.mark = none → Analysis.classify i.source p = .ok (.elementField kind) →
      ∀ path ∈ p.names, ∀ q ∈ path.parts,
        ((ofOptions options).forecast lookup text q.range.stopOrNext).map Forecast.context =
          some (.metadata (if i.source && !ps.isEmpty then .tag else kind))) ∧
    ∀ family first last range,
      p.relation = some (.binary family (.range ⟨first, last, none⟩) range) → ∀ q ∈ last.parts,
        ((ofOptions options).forecast lookup text q.range.stopOrNext).map Forecast.context =
          q.offered? .bare := by
  refine ⟨fun q hq => ?_,
    fun _ hmark hkind _ hpath _ hq => map_context_name h hp hmark hkind hpath hq,
    fun _ _ _ _ hrelation _ hq => map_context_last h hp hrelation hq⟩
  have hcontext := map_context_subject lookup h hp hq
  exact ⟨hcontext, hcontext ▸ Query.Part.offered?_inj.trans Item.contextOfName_eq_iff⟩

/-! ## Names behind a bar -/

/-- The node of a path of one word. -/
def wordNode (value : String) (start stop : Nat) : Tree :=
  nodeOf 28 "STRING" [.leaf ⟨.string value .word, .between start stop⟩]

/-- The leaf of a symbol of one character. -/
def symbolLeaf (s : Symbol) (start : Nat) : Tree := .leaf ⟨.symbol s, .between start (start + 1)⟩

/-- The node of a phrase of one word. -/
def wordPhrase (value : String) (start stop : Nat) : Tree :=
  nodeOf 16 "SFP" [nodeOf 18 "SUBJECT" [wordNode value start stop]]

/-- The parse tree of `^tag:sea @ann sun|moon`. -/
def seaTree : Tree :=
  let field := nodeOf 17 "SFP" [nodeOf 18 "SUBJECT" [wordNode "tag" 1 4],
    nodeOf 19 "FAMILY" [symbolLeaf .colon 4],
    nodeOf 25 "PREDICATIVE" [nodeOf 30 "VALUE_LIST" [nodeOf 32 "VALUE" [wordNode "sea" 5 8]]]]
  let first := nodeOf 5 "SEQUENCE_ITEM"
    [symbolLeaf .caret 0, nodeOf 8 "ELEMENT" [nodeOf 13 "ELEMENT_ITEM" [field]]]
  let second := nodeOf 4 "SEQUENCE_ITEM" [nodeOf 9 "ELEMENT"
    [nodeOf 10 "ELEMENT_PREFIX" [symbolLeaf .atSign 9],
      nodeOf 13 "ELEMENT_ITEM" [wordPhrase "ann" 10 13]]]
  let third := nodeOf 4 "SEQUENCE_ITEM" [nodeOf 8 "ELEMENT" [nodeOf 14 "ELEMENT_ITEM"
    [nodeOf 13 "ELEMENT_ITEM" [wordPhrase "sun" 14 17], symbolLeaf .pipe 17,
      wordPhrase "moon" 18 22]]]
  nodeOf 2 "SEQUENCE" [nodeOf 2 "SEQUENCE" [nodeOf 1 "SEQUENCE" [first], second], third]

theorem parsed_sea :
    (ofOptions .default).parsed "^tag:sea @ann sun|moon" = ⟨some seaTree, [], []⟩ := by
  have hderived : Derived (.nonterminal "SEQUENCE")
      ((ofOptions .default).tokens "^tag:sea @ann sun|moon") seaTree :=
    ⟨by decide, by simp [seaTree, wordPhrase, wordNode, symbolLeaf, nodeOf, Tree.Located,
      Tree.AllLocated], by decide +kernel, rfl⟩
  have hgrammar : (ofOptions .default).grammar = Query.grammar := by simp only [ofOptions]
  rw [parsed, hgrammar, parse_eq_of_derived hderived]

/-- A phrase that is a word alone. -/
def wordAlone (value : String) (range : Span) : Phrase := ⟨⟨⟨value, .word, range⟩, []⟩, none, range⟩

/-- The phrase `tag:sea`. -/
def seaPhrase : Phrase :=
  ⟨⟨⟨"tag", .word, .between 1 4⟩, []⟩, some (.binary .equal (.values
    [⟨none, false, ⟨⟨"sea", .word, .between 5 8⟩, []⟩, .between 5 8⟩]) (.between 4 8)),
    .between 1 8⟩

/-- The item `^tag:sea`. -/
def seaItem : Item := ⟨false, true, ⟨none, [seaPhrase], .between 1 8⟩, .between 0 8⟩

/-- The item `@ann`. -/
def annItem : Item :=
  ⟨false, false, ⟨some .author, [wordAlone "ann" (.between 10 13)], .between 9 13⟩, .between 9 13⟩

/-- The item `sun|moon`. -/
def moonItem : Item :=
  ⟨false, false, ⟨none, [wordAlone "sun" (.between 14 17), wordAlone "moon" (.between 18 22)],
    .between 14 22⟩, .between 14 22⟩

theorem joinedItems_sea : (ofOptions .default).joinedItems "^tag:sea @ann sun|moon" =
    [(false, seaItem), (false, annItem), (false, moonItem)] := by
  rw [joinedItems, parsed_sea]
  decide +kernel

/-- In `^tag:sea` tags of sources are expected, for the word in front as for the value. -/
theorem forecast_names_sea :
    (ofOptions .default).joinedItems "^tag:sea @ann sun|moon" =
        [] ++ (false, seaItem) :: [(false, annItem), (false, moonItem)] ∧
      seaItem.element.phrases = [] ++ seaPhrase :: [] ∧
      ((ofOptions .default).forecast .empty "^tag:sea @ann sun|moon" 4).map Forecast.context =
        some (.metadata .sourceTag) ∧
      ((ofOptions .default).forecast .empty "^tag:sea @ann sun|moon" 8).map Forecast.context =
        some (.metadata .sourceTag) := by
  have hjoined : (ofOptions .default).joinedItems "^tag:sea @ann sun|moon" =
      [] ++ (false, seaItem) :: [(false, annItem), (false, moonItem)] := joinedItems_sea
  have hphrases : seaItem.element.phrases = [] ++ seaPhrase :: [] := rfl
  obtain ⟨hsubject, hvalues, -⟩ :=
    forecast_names .default .empty "^tag:sea @ann sun|moon" hjoined hphrases
  exact ⟨hjoined, hphrases, (hsubject ⟨"tag", .word, .between 1 4⟩ (.head _)).1,
    hvalues .sourceTag rfl (by decide) ⟨⟨"sea", .word, .between 5 8⟩, []⟩ (.head _)
      ⟨"sea", .word, .between 5 8⟩ (.head _)⟩

/-- **The walk behind a bar does not notice where the item begins.** In `^tag:sea @ann sun|moon`,
which has no errors, `moon` is a name in an item without a mark; yet names of authors are expected,
since the item before has their mark. -/
theorem not_bare_moon :
    ((ofOptions .default).parse "^tag:sea @ann sun|moon").errors = [] ∧
      (ofOptions .default).joinedItems "^tag:sea @ann sun|moon" =
        [(false, seaItem), (false, annItem)] ++ (false, moonItem) :: [] ∧
      moonItem.element.phrases =
        [wordAlone "sun" (.between 14 17)] ++ wordAlone "moon" (.between 18 22) :: [] ∧
      Analysis.classify moonItem.source (wordAlone "moon" (.between 18 22)) = .ok .name ∧
      ((ofOptions .default).forecast .empty "^tag:sea @ann sun|moon" 22).map Forecast.context ≠
        (Query.Part.mk "moon" .word (.between 18 22)).offered? moonItem.nameContext := by
  refine ⟨?_, joinedItems_sea, rfl, by decide, by decide +kernel⟩
  rw [parse, front_eq, parsed_sea]
  decide +kernel

end Compiler

end PixQuery
