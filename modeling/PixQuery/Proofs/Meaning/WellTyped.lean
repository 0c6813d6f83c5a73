import PixQuery.Proofs.Plan.Recompiling

/-!
# What a query means is well typed

What images are looked up with trusts the meaning of a query: sort keys stand once, a clause of free
text holds texts, a clause about names holds entities of its kind with different numbers, and a
filter compares its field with values of the type of the field.

The clauses of an analysis hold what the lookup tells, and their filters answer the phrases they
come from. What is left is that the entities of a clause differ: each union is gathered from groups
of entities, and gathering leaves out an entity that is a member already.

Results:
* `nodup_identities_unionOf`: a union names no entity twice.
* `Analysis.gathers_of_analyzeItem`: the unions of all clauses about names are gathered.
* `Compiler.isWellTyped_of_analyze`: what a text is understood as is well typed.
-/

namespace PixQuery

open Query (Path Phrase Item)

/-! ## Well-typed meanings -/

/-- The value is one that a field of the type may be compared with. -/
def FilterValue.IsOf (type : FieldType) (v : FilterValue) : Prop :=
  match type with
  | .number | .patternNumber => ∃ n, v = .number n
  | .size => ∃ n, v = .size n
  | .date | .dateTime => ∃ d, v = .date d
  | .string | .patternString => ∃ s, v = .text s
  | .flag | .composition => False

/-- The filter fits the type of its field. -/
def Filter.IsWellTyped : Filter → Prop
  | equal field values => values ≠ [] ∧ ∀ v ∈ values, v.IsOf field.type
  | range field lower upper =>
    field.type.isComparable = true ∧ (lower.isSome ∨ upper.isSome) ∧
      ∀ b ∈ lower.toList ++ upper.toList, b.value.IsOf field.type
  | similar field patterns =>
    (field.type = .patternNumber ∨ field.type = .patternString) ∧ patterns ≠ []
  | flag field => field.type = .flag ∨ field.type = .composition
  | composition field value =>
    field.type = .composition ∧ value.bits ≠ 0 ∧ ∀ i, value.bits.toNat.testBit i →
      ∃ f ∈ FlagFamily.tagme.flags, f.2.toNat.testBit i

/-- A clause of free text holds texts, one of a kind entities of the kind with different numbers. -/
def ElementClause.IsWellTyped (c : ElementClause) : Prop :=
  match c.kind with
  | .text => ∀ v ∈ c.union, ∃ value exact, v = .text value exact
  | .of kind => ∃ es : List Entity, c.union = es.map .entity ∧ (∀ e ∈ es, e.kind = kind) ∧
      (es.map Entity.id).Nodup

/-- Sort keys stand once, and all clauses are well typed. -/
structure Meaning.IsWellTyped (m : Meaning) : Prop where
  sorts : (m.sorts.map SortItem.key).Nodup
  elements : ∀ c ∈ m.elements, c.IsWellTyped
  filters : ∀ c ∈ m.filters, ∀ f ∈ c.union, f.IsWellTyped

/-! ## Filters -/

theorem FilterValue.Fits.isOf {type : FieldType} {v : FilterValue} (h : v.Fits type) :
    v.IsOf type := by
  cases v with
  | number n => obtain rfl | rfl := h <;> exact ⟨n, rfl⟩
  | size n =>
    obtain ⟨rfl, _⟩ := h
    exact ⟨n, rfl⟩
  | date d => obtain rfl | rfl := h <;> exact ⟨d, rfl⟩
  | text s => obtain rfl | rfl := h <;> exact ⟨s, rfl⟩

/-- The bits of known flags are those of single flags. -/
theorem Flags.exists_flag_of_testBit {f : Tagme} (h : IsKnown f) {i : Nat}
    (hi : f.bits.toNat.testBit i) : ∃ g ∈ FlagFamily.tagme.flags, g.2.toNat.testBit i := by
  have hlt : i < 4 := by
    by_contra hle
    have hpow : 2 ^ 4 ≤ 2 ^ i := Nat.pow_le_pow_right (by omega) (by omega)
    rw [Nat.testBit_lt_two_pow (Nat.lt_of_lt_of_le h.1 hpow)] at hi
    cases hi
  have hall : ∀ i < 4, ∃ g ∈ FlagFamily.tagme.flags, g.2.toNat.testBit i := by decide
  exact hall i hlt

theorem Filtering.Answers.isWellTyped {year : Int} {f : Filter}
    (h : Filtering.Answers year f.field f) : f.IsWellTyped := by
  have hvalues : ∀ v ∈ f.values, v.IsOf f.field.type := fun v hv => (h.values v hv).1.isOf
  have hallowed := h.allowed
  cases f with
  | equal field values => exact ⟨hallowed, hvalues⟩
  | similar field patterns =>
    obtain ⟨hne, hpatterns⟩ := hallowed
    obtain ⟨p, ps, rfl⟩ := List.exists_cons_of_ne_nil hne
    exact ⟨(hpatterns p List.mem_cons_self).symm.imp And.left id, hne⟩
  | range field lower upper =>
    exact ⟨hallowed.1, hallowed.2, fun b hb => hvalues _ (List.mem_map_of_mem hb)⟩
  | flag field => exact hallowed
  | composition field value =>
    exact ⟨hallowed.1, hallowed.2.2, fun _ hi => Flags.exists_flag_of_testBit hallowed.2 hi⟩

/-! ## Unions -/

/-- The kinds and numbers of the entities of a union. -/
def identities (union : List ElementValue) : List (Kind × UInt64) :=
  (union.filterMap ElementValue.entity?).map fun e => (e.kind, e.id)

theorem isMember_iff {union : List ElementValue} {e : Entity} :
    isMember union e = true ↔ (e.kind, e.id) ∈ identities union := by
  simp only [isMember, identities, List.any_eq_true, List.mem_map, List.mem_filterMap]
  constructor
  · rintro ⟨v, hv, h⟩
    cases v with
    | text => cases h
    | entity o => exact ⟨o, ⟨_, hv, rfl⟩, by simpa [and_comm] using h⟩
  · rintro ⟨o, ⟨v, hv, ho⟩, h⟩
    cases v with
    | text => cases ho
    | entity e' =>
      obtain rfl := Option.some.inj ho
      exact ⟨_, hv, by simpa using h⟩

theorem nodup_identities_addEntities : ∀ {found : List Entity} {union : List ElementValue},
    (identities union).Nodup → (identities (addEntities union found)).Nodup
  | [], _, h => h
  | e :: found, union, h => by
    refine @nodup_identities_addEntities found _ ?_
    show (identities (if isMember union e then union else union ++ [.entity e])).Nodup
    by_cases hmember : isMember union e
    · rwa [if_pos hmember]
    · rw [if_neg hmember]
      rw [isMember_iff] at hmember
      have hlast : identities (union ++ [.entity e]) = identities union ++ [(e.kind, e.id)] := by
        simp [identities, ElementValue.entity?]
      rw [hlast]
      exact List.nodup_append'.mpr ⟨h, List.nodup_singleton _, by simpa using hmember⟩

/-- **A union names no entity twice.** -/
theorem nodup_identities_unionOf (groups : List (List Entity)) :
    (identities (unionOf groups)).Nodup := by
  have hfold : ∀ (groups : List (List Entity)) (union : List ElementValue),
      (identities union).Nodup → (identities (groups.foldl addEntities union)).Nodup := by
    intro groups
    induction groups with
    | nil => exact fun _ h => h
    | cons found groups ih => exact fun _ h => ih _ (nodup_identities_addEntities h)
  exact hfold groups [] List.nodup_nil

/-- Entities of a kind that are named once have different numbers. -/
theorem exists_entities {kind : Kind} {union : List ElementValue}
    (h : (ElementKind.of kind).Holds (fun k e => e.kind = k) union)
    (hnodup : (identities union).Nodup) :
    ∃ es : List Entity, union = es.map .entity ∧ (∀ e ∈ es, e.kind = kind) ∧
      (es.map Entity.id).Nodup := by
  have hkinds : ∀ e ∈ union.filterMap ElementValue.entity?, e.kind = kind := by
    intro e he
    obtain ⟨v, hv, hve⟩ := List.mem_filterMap.mp he
    obtain ⟨o, rfl, ho⟩ := h v hv
    obtain rfl := Option.some.inj hve
    exact ho
  refine ⟨union.filterMap ElementValue.entity?, ?_, hkinds, ?_⟩
  · clear hnodup hkinds
    induction union with
    | nil => rfl
    | cons v union ih =>
      obtain ⟨e, rfl, _⟩ := h v List.mem_cons_self
      have hsome : ElementValue.entity? (.entity e) = some e := rfl
      rw [List.filterMap_cons_some hsome, List.map_cons,
        ← ih fun w hw => h w (List.mem_cons_of_mem _ hw)]
  · have hids : (union.filterMap ElementValue.entity?).map Entity.id =
        (identities union).map Prod.snd := by
      rw [identities, List.map_map]
      rfl
    rw [hids]
    refine hnodup.map_on fun x hx y hy hxy => Prod.ext ?_ hxy
    obtain ⟨e, he, rfl⟩ := List.mem_map.mp hx
    obtain ⟨o, ho, rfl⟩ := List.mem_map.mp hy
    exact (hkinds e he).trans (hkinds o ho).symm

namespace Analysis

variable {lookup : Lookup} {options : CompilerOptions} {clock : Int}

/-! ## Clauses -/

/-- A union that is gathered from groups of entities. -/
def IsGathered (union : List ElementValue) : Prop := ∃ groups, union = unionOf groups

/-- A clause about names that an item adds has a gathered union. -/
def Contribution.Gathers : Contribution → Prop
  | element c => c.kind = .text ∨ IsGathered c.union
  | sorts _ | filter _ | nothing => True

theorem isGathered_of_resolveAll {kind : Kind} {paths : List Path} {union : List ElementValue}
    (h : resolveAll lookup kind paths = .ok union) : IsGathered union := by
  obtain ⟨groups, _, rfl⟩ := Understood.exists_of_map h
  exact ⟨groups, rfl⟩

theorem isGathered_of_markedItem {bounds : RangeBounds} {item : Item} {mark : Query.Mark}
    {c : ElementClause} (h : markedItem lookup bounds item mark = .ok c) : IsGathered c.union := by
  unfold markedItem at h
  split at h
  · cases h
  · obtain ⟨groups, _, h⟩ := Understood.exists_of_bind h
    obtain rfl := Except.ok.inj h
    exact ⟨groups, rfl⟩

theorem isGathered_of_elementFieldItem {item : Item} {kind : Kind} {kinds : List Kind}
    {c : ElementClause} (h : elementFieldItem lookup item kind kinds = .ok c) :
    IsGathered c.union := by
  unfold elementFieldItem at h
  split at h
  · cases h
  · obtain ⟨paths, _, h⟩ := Understood.exists_of_bind h
    obtain ⟨union, hunion, h⟩ := Understood.exists_of_bind h
    obtain rfl := Except.ok.inj h
    exact isGathered_of_resolveAll hunion

theorem isGathered_of_nameItem {bounds : RangeBounds} {item : Item} {subjects : List Subject}
    {c : ElementClause} (h : nameItem lookup bounds item subjects = .ok c) :
    IsGathered c.union := by
  unfold nameItem at h
  simp only at h
  split at h
  · obtain ⟨groups, _, h⟩ := Understood.exists_of_bind h
    obtain rfl := Except.ok.inj h
    exact ⟨groups, rfl⟩
  · split at h
    · obtain ⟨union, hunion, h⟩ := Understood.exists_of_bind h
      obtain rfl := Except.ok.inj h
      exact isGathered_of_resolveAll hunion
    · obtain ⟨⟨kind, union⟩, hunion, h⟩ := Understood.exists_of_bind h
      obtain rfl := Except.ok.inj h
      exact isGathered_of_resolveAll (resolveAll_of_resolveBare hunion)

theorem gathers_of_plainItem {item : Item} {subjects : List Subject} {c : Contribution}
    (h : plainItem lookup options clock item subjects = .ok c) : c.Gathers := by
  unfold plainItem at h
  split at h
  · split at h
    · unfold fieldItem at h
      split at h
      · obtain ⟨groups, _, h⟩ := Understood.exists_of_bind h
        split at h <;> obtain rfl := Except.ok.inj h <;> trivial
      · split at h
        · cases h
        · obtain ⟨clause, hclause, h⟩ := Understood.exists_of_bind h
          obtain rfl := Except.ok.inj h
          exact .inr (isGathered_of_elementFieldItem hclause)
    · cases h
  · split at h
    · split at h
      · obtain ⟨clause, hclause, h⟩ := Understood.exists_of_bind h
        obtain rfl := Except.ok.inj h
        unfold textItem at hclause
        split at hclause
        · cases hclause
        · obtain rfl := Except.ok.inj hclause
          exact .inl rfl
      · cases h
    · obtain ⟨clause, hclause, h⟩ := Understood.exists_of_bind h
      obtain rfl := Except.ok.inj h
      exact .inr (isGathered_of_nameItem hclause)

/-- **The clause of an item** is one of texts or has a gathered union. -/
theorem gathers_of_analyzeItem {present : List OrderKey} {item : Item} {c : Contribution}
    (h : (analyzeItem lookup options clock present item).2 = .ok c) : c.Gathers := by
  unfold analyzeItem at h
  split at h
  · obtain ⟨clause, hclause, rfl⟩ := Understood.exists_of_map h
    exact .inr (isGathered_of_markedItem hclause)
  · split at h
    · cases h
    · split at h
      · unfold sortingItem at h
        split at h
        · split at h
          · cases h
          · obtain ⟨items, _, rfl⟩ := Understood.exists_of_map h
            trivial
        · cases h
      · exact gathers_of_plainItem h

end Analysis

/-- Clauses about names have gathered unions. -/
theorem isGathered_of_analyze {lookup : Lookup} {options : CompilerOptions}
    {clock : Int} {root : Tree}
    {m : Meaning} (h : (analyze lookup options clock root).result = some m) :
    ∀ c ∈ m.elements, c.kind = .text ∨ Analysis.IsGathered c.union := by
  refine of_analyze (Q := fun m => ∀ c ∈ m.elements, c.kind = .text ∨ Analysis.IsGathered c.union)
    nofun (fun {m item c} hm hc => ?_) h
  have hgathers := Analysis.gathers_of_analyzeItem hc
  cases c with
  | element clause => exact List.forall_mem_append.mpr ⟨hm, List.forall_mem_singleton.mpr hgathers⟩
  | sorts items => exact hm
  | filter clause => exact hm
  | nothing => exact hm

theorem ElementClause.isWellTyped {c : ElementClause}
    (hholds : c.kind.Holds (fun k e => e.kind = k) c.union)
    (hgathered : c.kind = .text ∨ Analysis.IsGathered c.union) : c.IsWellTyped := by
  unfold IsWellTyped
  split
  · rename_i hkind
    rw [hkind] at hholds
    exact hholds.2
  · rename_i kind hkind
    rw [hkind] at hholds hgathered
    obtain ⟨groups, hunion⟩ := hgathered.resolve_left nofun
    exact exists_entities hholds (hunion ▸ nodup_identities_unionOf groups)

namespace Compiler

/-- **What a text is understood as is well typed**: sort keys stand once, clauses of free text hold
texts, clauses about names hold entities of their kind with different numbers, and filters fit the
types of their fields. -/
theorem isWellTyped_of_analyze {c : Compiler} {s : Snapshot} {text : String} {clock : Int}
    {m : Meaning}
    (h : (c.analyze s.lookup text clock).result = some m) : m.IsWellTyped := by
  have hm := ((Findings.finish_result_eq_some_iff _ _).mp h).2
  obtain rfl | ⟨root, hroot⟩ := empty_or_of_understand hm
  · exact ⟨.nil, nofun, nofun⟩
  · have htyped := isTyped_of_analyze s.tells_lookup hroot
    have hgathered := isGathered_of_analyze hroot
    exact ⟨htyped.sorts,
      fun c hc => ElementClause.isWellTyped (htyped.elements c hc) (hgathered c hc),
      fun c hc f hf => ((htyped.filters c hc).2 f hf).isWellTyped⟩

open Plan (spine cat lynx cats)

/-- The tokens of `$cat|felix score>3`. -/
def catTokens : List Token :=
  [⟨.symbol .dollar, .between 0 1⟩, ⟨.string "cat" .word, .between 1 4⟩,
    ⟨.symbol .pipe, .between 4 5⟩, ⟨.string "felix" .word, .between 5 10⟩,
    ⟨.string "score" .word, .between 11 16⟩, ⟨.symbol .gt, .between 16 17⟩,
    ⟨.string "3" .word, .between 17 18⟩]

/-- The tree of `$cat|felix score>3`. -/
def catTree : Tree :=
  match catTokens.map Tree.leaf with
  | [mark, cat, pipe, felix, score, gt, three] =>
    let phrase := spine [(16, "SFP"), (18, "SUBJECT"), (28, "STRING")]
    let names := Query.nodeOf 9 "ELEMENT" [Query.nodeOf 12 "ELEMENT_PREFIX" [mark],
      Query.nodeOf 14 "ELEMENT_ITEM" [Query.nodeOf 13 "ELEMENT_ITEM" [phrase cat],
        pipe, phrase felix]]
    let filter := spine [(4, "SEQUENCE_ITEM"), (8, "ELEMENT"), (13, "ELEMENT_ITEM")]
      (Query.nodeOf 17 "SFP" [spine [(18, "SUBJECT"), (28, "STRING")] score,
        Query.nodeOf 20 "FAMILY" [gt],
        spine [(25, "PREDICATIVE"), (30, "VALUE_LIST"), (32, "VALUE"), (28, "STRING")] three])
    Query.nodeOf 2 "SEQUENCE" [spine [(1, "SEQUENCE"), (4, "SEQUENCE_ITEM")] names, filter]
  | _ => default

theorem derived_catTree : Query.Derived (.nonterminal "SEQUENCE") catTokens catTree where
  derivation := by decide
  located := by simp [catTree, catTokens, spine, Query.nodeOf, Tree.Located, Tree.AllLocated]
  tokens := rfl
  symbol := rfl

/-- Images of the cat or the lynx with a score over three. -/
def catMeaning : Meaning :=
  ⟨[], [⟨.of .tag, false, [.entity (.tag cat), .entity (.tag lynx)], .between 0 10⟩],
    [⟨false, [.range .score (some ⟨.number 3, false⟩) none], .between 11 18⟩]⟩

theorem analyze_catText :
    ((ofOptions .default).analyze cats.lookup "$cat|felix score>3" 2021).result =
      some catMeaning := by
  have hlex : PixQuery.lex default "$cat|felix score>3" = ⟨some catTokens, [], []⟩ := by
    decide +kernel
  have hgrammar : (ofOptions .default).grammar = Query.grammar := by simp only [ofOptions]
  have hparse := Query.parse_eq_of_derived derived_catTree
  rw [← hgrammar] at hparse
  rw [result_analyze hlex hparse]
  decide +kernel

/-- Both names mean the cat, which is a member once. -/
theorem isWellTyped_of_analyze_cats :
    ((ofOptions .default).analyze cats.lookup "$cat|felix score>3" 2021).result = some catMeaning ∧
      catMeaning.IsWellTyped :=
  ⟨analyze_catText, isWellTyped_of_analyze analyze_catText⟩

end Compiler

end PixQuery
