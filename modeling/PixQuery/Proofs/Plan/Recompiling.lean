import PixQuery.Metadata.Snapshot
import PixQuery.Proofs.Compile.Stages
import PixQuery.Proofs.Meaning.Unions
import PixQuery.Proofs.Plan.RoundTrip

/-!
# Compiling a plan again

A plan that was compiled is written as a query, and the query is compiled once more. Sort keys, free
text and filters always come back. What names come back as is up to the lookup: a name that one
entity is written with may mean others too.

Results:
* `Plan.compile_query_of_texts`: a plan without names comes back as it was.
* `Plan.compile_query_iff`: when a plan with names comes back as it was.
-/

namespace PixQuery

open Query (AvoidsIn)

/-! ## Fields of metadata in what is written -/

theorem not_namesKind_plainName (f : Field) : ¬NamesKind f.plainName := by
  rintro ⟨source, h⟩
  revert h
  cases source <;> cases f <;> decide

theorem not_namesKind_order : ¬NamesKind "order" := by
  rintro ⟨source, h⟩
  revert h
  cases source <;> decide

/-- No name of a field of metadata stands before a colon in the query of a plan. -/
theorem Plan.avoids_of_mem_items {p : Plan} {i : Query.Item} (h : i ∈ p.items) :
    ∀ q ∈ i.element.phrases, q.Avoids NamesKind := by
  rw [items, List.mem_append, List.mem_append] at h
  intro q hq
  rcases h with (h | h) | h
  · split at h
    · cases h
    · obtain rfl := List.mem_singleton.mp h
      obtain rfl := List.mem_singleton.mp hq
      exact fun _ _ _ _ => not_namesKind_order
  · obtain ⟨g, hg, h⟩ := List.mem_flatMap.mp h
    obtain ⟨e, he, rfl⟩ := List.mem_map.mp h
    obtain ⟨v, _, rfl⟩ := List.mem_map.mp hq
    cases v <;> exact fun _ _ hr => by cases hr
  · obtain ⟨g, hg, rfl⟩ := List.mem_map.mp h
    obtain ⟨f, _, rfl⟩ := List.mem_map.mp hq
    exact fun _ _ _ _ => not_namesKind_plainName f.field

/-- **A plan that comes back from what a plan is written as** has members in all of its items. -/
theorem Plan.ne_nil_of_compile_query {lookup : Lookup} {options : CompilerOptions} {clock : Int}
    (hlex : options.lexical = CompilerOptions.default.lexical) {p q : Plan}
    (h : ((Compiler.ofOptions options).compile lookup p.query clock).result = some q) :
    ∀ g ∈ q.elements, ∀ i ∈ g.items, i.union ≠ [] := by
  obtain ⟨tokens, hlexed, htokens⟩ := p.lex_query
  have hdefault : options.lexical = default := hlex
  rw [← hdefault] at hlexed
  have havoids : Query.Avoids NamesKind (tokens.map Token.lexeme) :=
    htokens ▸ Query.avoids_script fun i hi => avoids_of_mem_items hi
  obtain ⟨m, hm, rfl⟩ := Compiler.exists_meaning_of_compile h
  have hlex' : (Compiler.ofOptions options).lex p.query = ⟨some tokens, [], []⟩ := hlexed
  have hmembers : ∀ c ∈ m.elements, c.union ≠ [] := by
    unfold Compiler.understand at hm
    split at hm
    · rename_i findings tree hfront
      simp only [Compiler.front, hlex', Option.getD_some] at hfront
      have hgrammar : (Compiler.ofOptions options).grammar = Query.grammar := by
        simp only [Compiler.ofOptions]
      have hparse := (Prod.mk.inj hfront).2
      rw [hgrammar] at hparse
      refine ne_nil_of_analyze ?_ hm
      rw [AvoidsIn, (Query.derived_of_parse hparse).tokens]
      exact havoids
    · simp only at hm
      split at hm
      · obtain rfl := Option.some.inj hm
        exact fun c hc => by cases hc
      · cases hm
  exact (isGrouped_groups (Q := fun _ i => i.union ≠ []) hmembers).holds

/-! ## Plans without names -/

namespace Plan

/-- A plan without names is typed whatever is told of entities. -/
theorem IsTyped.of_texts {P P' : Kind → Entity → Prop} {year : Int} {p : Plan}
    (h : p.IsTyped P year) (htexts : ∀ g ∈ p.elements, g.kind = .text) : p.IsTyped P' year where
  sorts := h.sorts
  elements :=
    ⟨h.elements.kinds, h.elements.items, fun g hg i hi => by
      have hholds := h.elements.holds g hg i hi
      rw [htexts g hg] at hholds ⊢
      exact hholds⟩
  filters := h.filters

/-- **A plan without names comes back as it was**, with any lookup and in any later year: its sort
keys, its free text and its filters are read back from the query that it is written as. -/
theorem compile_query_of_texts {lookup other : Lookup} {options : CompilerOptions}
    {clock later : Int} {text : String} {p : Plan}
    (hlex : options.lexical = CompilerOptions.default.lexical) (hyear : 0 ≤ options.year clock)
    (h : ((Compiler.ofOptions options).compile lookup text clock).result = some p)
    (htexts : ∀ g ∈ p.elements, g.kind = .text) :
    ((Compiler.ofOptions options).compile other p.query later).result = some p ∧
      ((Compiler.ofOptions options).compile other p.query later).errors = [] := by
  have hp : p.IsTyped (fun k e => e.kind = k) (options.year clock) :=
    (Compiler.isTyped_of_compile lookup.tells_anything h).of_texts htexts
  have hunions : ∀ g ∈ p.elements, ∀ i ∈ g.items, i.union ≠ [] := by
    intro g hg i hi
    have hholds := hp.elements.holds g hg i hi
    rw [htexts g hg] at hholds
    exact hholds.1
  have hreadable : p.IsReadable := fun g hg f hf => ((hp.filters g hg).2 f hf).isReadable hyear
  have hgroups : p.elements.mapM (ElementGroup.reread other) = some p.elements := by
    refine mapM_eq_some_self_iff.mpr fun g hg => ElementGroup.reread_eq_some_self_iff.mpr ?_
    rw [htexts g hg]
    exact fun _ _ => rfl
  have hresult : ((Compiler.ofOptions options).compile other p.query later).result = some p := by
    rw [result_compile_query hlex (fun _ he => he) hp hunions hreadable, hgroups]
    rfl
  exact ⟨hresult, Compiler.errors_of_compile hresult⟩

/-- A tree under nodes that have one child each. -/
def spine (rows : List (Nat × String)) (t : Tree) : Tree :=
  rows.foldr (fun row t => Query.nodeOf row.1 row.2 [t]) t

/-- The tokens of `'sky' size>=1.5kb`. -/
def skyTokens : List Token :=
  [⟨.string "sky" .apostrophe, .between 0 5⟩, ⟨.string "size" .word, .between 6 10⟩,
    ⟨.symbol .gte, .between 10 12⟩, ⟨.string "1" .word, .between 12 13⟩,
    ⟨.symbol .dot, .between 13 14⟩, ⟨.string "5kb" .word, .between 14 17⟩]

/-- The tree of `'sky' size>=1.5kb`. -/
def skyTree : Tree :=
  match skyTokens.map Tree.leaf with
  | [sky, size, gte, one, dot, unit] =>
    let text := spine [(4, "SEQUENCE_ITEM"), (8, "ELEMENT"), (13, "ELEMENT_ITEM"), (16, "SFP"),
      (18, "SUBJECT"), (28, "STRING")] sky
    let amount := spine [(25, "PREDICATIVE"), (30, "VALUE_LIST"), (32, "VALUE")]
      (Query.nodeOf 29 "STRING" [Query.nodeOf 28 "STRING" [one], dot, unit])
    let filter := spine [(4, "SEQUENCE_ITEM"), (8, "ELEMENT"), (13, "ELEMENT_ITEM")]
      (Query.nodeOf 17 "SFP" [spine [(18, "SUBJECT"), (28, "STRING")] size,
        Query.nodeOf 21 "FAMILY" [gte], amount])
    Query.nodeOf 2 "SEQUENCE" [Query.nodeOf 1 "SEQUENCE" [text], filter]
  | _ => default

theorem derived_skyTree : Query.Derived (.nonterminal "SEQUENCE") skyTokens skyTree where
  derivation := by decide
  located := by
    simp [skyTree, skyTokens, spine, Query.nodeOf, Tree.Located, Tree.AllLocated]
  tokens := rfl
  symbol := rfl

/-- Images that say `sky` somewhere and have 1500 bytes or more. -/
def sky : Plan :=
  ⟨[], [⟨.text, [⟨false, [.text "sky" false]⟩]⟩],
    [⟨false, [.range .filesize (some ⟨.size 1500, true⟩) none]⟩]⟩

theorem compile_skyText :
    ((Compiler.ofOptions .default).compile .empty "'sky' size>=1.5kb" 2021).result = some sky := by
  have hlex : lex default "'sky' size>=1.5kb" = ⟨some skyTokens, [], []⟩ := by decide +kernel
  have hgrammar : (Compiler.ofOptions .default).grammar = Query.grammar := by
    simp only [Compiler.ofOptions]
  have hparse := Query.parse_eq_of_derived derived_skyTree
  rw [← hgrammar] at hparse
  rw [Compiler.result_compile hlex hparse]
  decide

theorem compile_query_sky : sky.query = "'sky' filesize>=1500" ∧
    ((Compiler.ofOptions .default).compile .empty sky.query 2022).result = some sky :=
  ⟨by decide,
    (@compile_query_of_texts .empty .empty .default 2021 2022 _ sky rfl (by decide) compile_skyText
      (by decide)).1⟩

end Plan

/-! ## Plans with names -/

/-- A snapshot tells of entities of the kind that is asked for. -/
theorem Snapshot.tells_lookup (s : Snapshot) : s.lookup.Tells fun k e => e.kind = k where
  byName kind parts e he := by
    unfold lookup byName at he
    simp only at he
    split at he
    · cases he
    · cases kind with
      | tag =>
        obtain ⟨t, _, rfl⟩ := List.mem_map.mp he
        rfl
      | topic =>
        obtain ⟨t, _, rfl⟩ := List.mem_map.mp he
        rfl
      | author =>
        unfold select at he
        simp only at he
        split at he
        · obtain ⟨a, _, rfl⟩ := List.mem_map.mp he
          rfl
        · cases he
      | sourceTag =>
        obtain ⟨t, _, rfl⟩ := List.mem_map.mp he
        rfl
  children id e he := by
    obtain ⟨t, _, rfl⟩ := List.mem_map.mp he
    rfl

/-- The names that an item is written with mean its members, in their order. -/
def ElementItem.IsMeant (lookup : Lookup) (kind : ElementKind) (i : ElementItem) : Prop :=
  match kind with
  | .text => True
  | .of k => resolveAll lookup k (i.union.map fun v => v.phrase.subject) = .ok i.union

theorem ElementItem.reread_eq_some_self_iff {lookup : Lookup} {kind : ElementKind}
    {i : ElementItem} : i.reread lookup kind = some i ↔ i.IsMeant lookup kind := by
  cases kind with
  | text => exact ⟨fun _ => trivial, fun _ => rfl⟩
  | of k =>
    rw [reread, IsMeant, Option.map_eq_some_iff]
    constructor
    · rintro ⟨union, hunion, hi⟩
      cases hfound : resolveAll lookup k (i.union.map fun v => v.phrase.subject) with
      | error fault =>
        rw [hfound] at hunion
        cases hunion
      | ok found =>
        rw [hfound] at hunion
        rw [← congrArg ElementItem.union hi, Option.some.inj hunion]
    · intro h
      exact ⟨i.union, by rw [h]; rfl, rfl⟩

namespace Plan

/-- What a plan with names needs in order to come back: readable dates, and in each item about names
members that are meant by their names. -/
structure IsMeant (lookup : Lookup) (p : Plan) : Prop where
  dates : p.IsReadable
  members : ∀ g ∈ p.elements, ∀ i ∈ g.items, i.union ≠ []
  names : ∀ g ∈ p.elements, ∀ i ∈ g.items, i.IsMeant lookup g.kind

/-- **When a plan comes back as it was** from the query that it is written as, looked up in the same
snapshot, in the same year or another. -/
theorem compile_query_iff {s : Snapshot} {options : CompilerOptions} {clock later : Int}
    {text : String} {p : Plan}
    (hlex : options.lexical = CompilerOptions.default.lexical)
    (h : ((Compiler.ofOptions options).compile s.lookup text clock).result = some p) :
    ((Compiler.ofOptions options).compile s.lookup p.query later).result = some p ↔
      p.IsMeant s.lookup := by
  have hp := Compiler.isTyped_of_compile s.tells_lookup h
  constructor
  · intro hback
    have hunions := ne_nil_of_compile_query hlex hback
    have hreadable := isReadable_of_compile_query hlex (fun _ he => he) hp hunions hback
    rw [result_compile_query hlex (fun _ he => he) hp hunions hreadable] at hback
    obtain ⟨gs, hgs, hback⟩ := Option.map_eq_some_iff.mp hback
    obtain rfl : gs = p.elements := congrArg Plan.elements hback
    refine ⟨hreadable, hunions, fun g hg i hi => ?_⟩
    have hgroup := ElementGroup.reread_eq_some_self_iff.mp (mapM_eq_some_self_iff.mp hgs g hg)
    exact ElementItem.reread_eq_some_self_iff.mp (hgroup i hi)
  · rintro ⟨hreadable, hunions, hnames⟩
    have hgroups : p.elements.mapM (ElementGroup.reread s.lookup) = some p.elements :=
      mapM_eq_some_self_iff.mpr fun g hg => ElementGroup.reread_eq_some_self_iff.mpr fun i hi =>
        ElementItem.reread_eq_some_self_iff.mpr (hnames g hg i hi)
    rw [result_compile_query hlex (fun _ he => he) hp hunions hreadable, hgroups]
    rfl

/-- The plan for one item about tags. -/
def ofTags (tags : List Tag) : Plan :=
  ⟨[], [⟨.of .tag, [⟨false, tags.map fun t => .entity (.tag t)⟩]⟩], []⟩

/-- What a row of names of tags is compiled into. -/
theorem compile_query_ofTags (lookup : Lookup) (clock : Int) {tags : List Tag}
    (hne : tags ≠ []) :
      ((Compiler.ofOptions .default).compile lookup (ofTags tags).query clock).result =
      ((ofTags tags).elements.mapM (ElementGroup.reread lookup)).map fun gs => ⟨[], gs, []⟩ := by
  have hgroup : ∀ g ∈ (ofTags tags).elements, ∀ i ∈ g.items,
      g.kind = .of .tag ∧ i.union = tags.map fun t => .entity (.tag t) := by
    intro g hg i hi
    obtain rfl := List.mem_singleton.mp hg
    obtain rfl := List.mem_singleton.mp hi
    exact ⟨rfl, rfl⟩
  have htyped : (ofTags tags).IsTyped (fun k e => e.kind = k) 0 := by
    refine ⟨.nil, ⟨List.nodup_singleton _, fun g hg => ?_, fun g hg i hi => ?_⟩, nofun⟩
    · obtain rfl := List.mem_singleton.mp hg
      exact List.cons_ne_nil _ _
    · obtain ⟨hkind, hunion⟩ := hgroup g hg i hi
      rw [hkind, hunion]
      intro v hv
      obtain ⟨t, _, rfl⟩ := List.mem_map.mp hv
      exact ⟨.tag t, rfl, rfl⟩
  have hunions : ∀ g ∈ (ofTags tags).elements, ∀ i ∈ g.items, i.union ≠ [] := by
    intro g hg i hi
    rw [(hgroup g hg i hi).2]
    exact mt List.map_eq_nil_iff.mp hne
  exact result_compile_query rfl (fun _ he => he) htyped hunions nofun

/-- A tag with other names, at the root. -/
def rootTag (id : UInt64) (name : String) (otherNames : List String) : Tag :=
  ⟨id, name, otherNames, none, .empty, []⟩

/-- A cat, also called felix. -/
def cat : Tag := rootTag 1 "cat" ["felix"]

/-- A lynx, also called cat. -/
def lynx : Tag := rootTag 2 "lynx" ["cat"]

/-- A snapshot where the name of one tag is another name of the other. -/
def cats : Snapshot := ⟨[cat, lynx], [], [], []⟩

theorem compile_felix :
    ((Compiler.ofOptions .default).compile cats.lookup "$felix" 2021).result =
      some (ofTags [cat]) := by
  have hquery : (ofTags [rootTag 0 "felix" []]).query = "$felix" := by decide
  rw [← hquery, compile_query_ofTags _ _ (List.cons_ne_nil _ _)]
  decide

/-- The tag that was asked for as `felix` is written as `cat`, and this means the lynx too. -/
theorem compile_query_felix :
    ((Compiler.ofOptions .default).compile cats.lookup "$felix" 2021).result = some (ofTags [cat]) ∧
      (ofTags [cat]).query = "$cat" ∧
      ((Compiler.ofOptions .default).compile cats.lookup "$cat" 2021).result =
        some (ofTags [cat, lynx]) ∧
      ofTags [cat, lynx] ≠ ofTags [cat] := by
  have hquery : (ofTags [cat]).query = "$cat" := by decide
  refine ⟨compile_felix, hquery, ?_, by decide⟩
  rw [← hquery, compile_query_ofTags _ _ (List.cons_ne_nil _ _)]
  decide

/-- Asked for together, the two come back. -/
theorem compile_query_cats :
    ((Compiler.ofOptions .default).compile cats.lookup "$felix|lynx" 2021).result =
        some (ofTags [cat, lynx]) ∧
      (ofTags [cat, lynx]).query = "$cat|lynx" ∧
      ((Compiler.ofOptions .default).compile cats.lookup "$cat|lynx" 2021).result =
        some (ofTags [cat, lynx]) := by
  have hasked : (ofTags [rootTag 0 "felix" [], rootTag 0 "lynx" []]).query = "$felix|lynx" := by
    decide
  have hquery : (ofTags [cat, lynx]).query = "$cat|lynx" := by decide
  have hcompile : ((Compiler.ofOptions .default).compile cats.lookup "$felix|lynx" 2021).result =
      some (ofTags [cat, lynx]) := by
    rw [← hasked, compile_query_ofTags _ _ (List.cons_ne_nil _ _)]
    decide
  refine ⟨hcompile, hquery, ?_⟩
  rw [← hquery]
  refine (compile_query_iff rfl hcompile).mpr ⟨nofun, ?_, ?_⟩
  · decide
  · intro g hg i hi
    obtain rfl := List.mem_singleton.mp hg
    obtain rfl := List.mem_singleton.mp hi
    show resolveAll cats.lookup .tag _ = _
    decide

end Plan

end PixQuery
