import PixQuery.Proofs.Compile.Stages
import PixQuery.Proofs.Meaning.Ranges
import PixQuery.Proofs.Query.Lossless

/-!
# Where the faults of a compilation stand

Whatever a compilation warns of or fails with stands in the text, or right behind its last
character. An error of analysis stands inside the item that it comes from, and as items stand one
behind the other, so do these errors.

Results:
* `warnings_compile`: the warnings are those of the stages.
* `Compiler.within_analyzed`, `Compiler.liesIn_planned`: analysis and planning speak of the text.
* `compile_ranges`: the ranges of all faults, and the order of the errors of analysis.
-/

namespace PixQuery

/-- The error of analysis that a fault is, if it is one. -/
def Fault.semantic? : Fault → Option SemanticFault
  | semantic f => some f
  | lexical _ | grammar _ | planning _ => none

theorem filterMap_semantic?_inOrder (lexical : List LexicalFault) (grammar : List SyntaxFault)
    (semantic : List SemanticFault) :
    (inOrder lexical grammar semantic).filterMap Fault.semantic? = semantic := by
  have hlexical : lexical.filterMap (Fault.semantic? ∘ .lexical) = [] :=
    List.filterMap_eq_nil_iff.mpr fun _ _ => rfl
  have hgrammar : grammar.filterMap (Fault.semantic? ∘ .grammar) = [] :=
    List.filterMap_eq_nil_iff.mpr fun _ _ => rfl
  rw [inOrder, List.filterMap_append, List.filterMap_append, List.filterMap_map,
    List.filterMap_map, List.filterMap_map, hlexical, hgrammar]
  exact List.filterMap_some

/-- What planning warns of stands where a clause does, or has no place. -/
theorem range_of_mem_warnings {options : CompilerOptions} {m : Meaning} {f : PlanningFault}
    (h : f ∈ (m.plan options).warnings) {r : Span} (hr : f.range = some r) :
    ∃ c ∈ m.elements, c.range = r := by
  rcases List.mem_append.mp h with h | h
  · obtain ⟨c, hc, hf⟩ := List.mem_filterMap.mp h
    refine ⟨c, hc, ?_⟩
    unfold Plan.unionWarning? at hf
    split at hf
    · cases hf
    split at hf
    · obtain rfl := Option.some.inj hf
      exact Option.some.inj hr
    · cases hf
  · have hf := Option.mem_toList.mp h
    unfold Plan.intersectionWarning? at hf
    split at hf
    · cases hf
    split at hf
    · obtain rfl := Option.some.inj hf
      cases hr
    · cases hf

/-- The items of a tree of the parser can be read. -/
theorem exists_items {tokens : List Token} {root : Tree}
    (h : Query.Derived (.nonterminal "SEQUENCE") tokens root) :
    ∃ nodes items, Query.itemNodes root = .ok nodes ∧ nodes.mapM Query.readItem = .ok items := by
  obtain ⟨nodes, hnodes, hderived⟩ := Query.exists_itemNodes h.derivation h.symbol
  obtain ⟨items, hitems⟩ := Understood.exists_mapM fun n hn => by
    obtain ⟨i, hi, _⟩ := Query.exists_readItem ⟨(hderived n hn).1, (hderived n hn).2⟩
    exact ⟨i, hi⟩
  exact ⟨nodes, items, hnodes, hitems⟩

namespace Compiler

variable {c : Compiler} {lookup : Lookup} {text : String} {clock : Int}

/-! ## Warnings of a compilation -/

/-- What planning warns of; without a meaning it is left out. -/
def planned (c : Compiler) (lookup : Lookup) (text : String) (clock : Int) :
    List PlanningFault :=
  match (c.understand lookup text clock).2 with
  | some meaning => (meaning.plan c.options).warnings
  | none => []

/-- **The warnings are those of the stages**, in the order of the stages. -/
theorem warnings_compile (c : Compiler) (lookup : Lookup) (text : String) (clock : Int) :
    (c.compile lookup text clock).warnings =
      (c.lex text).warnings.map .lexical ++ (c.analyzed lookup text clock).warnings.map .semantic ++
        (c.planned lookup text clock).map .planning := by
  have hfindings := congrArg Findings.warnings (findings_understand c lookup text clock)
  unfold compile planned
  cases hunderstood : c.understand lookup text clock with
  | mk findings meaning =>
    rw [hunderstood] at hfindings
    cases meaning with
    | none => exact (List.append_nil _ ▸ hfindings)
    | some meaning => exact congrArg (· ++ _) hfindings

/-! ## Ranges -/

theorem lex_result (c : Compiler) (text : String) :
    (c.lex text).result = some (c.tokens text) := rfl

/-- What is wrong with the tokens of a text stands in it, or behind its last token. -/
theorem isInText_parsed {f : SyntaxFault} (h : f ∈ (c.parsed text).errors) :
    f.range.IsInText text.length := by
  have htokens := liesIn_of_lex (lex_result c text)
  rcases range_of_mem_errors h with ⟨t, ht, hrange⟩ | hrange
  · rw [hrange]
    exact (htokens t ht).isInText
  · rw [hrange]
    exact Span.isInText_point (stopOf_le fun t ht => (htokens t ht).stop_le)

variable {options : CompilerOptions} {root : Tree}

theorem derived_parsed (h : ((ofOptions options).parsed text).result = some root) :
    Query.Derived (.nonterminal "SEQUENCE") ((ofOptions options).tokens text) root := by
  have hgrammar : (ofOptions options).grammar = Query.grammar := by simp only [ofOptions]
  rw [parsed, hgrammar] at h
  exact Query.derived_of_parse h

/-- The tree of a text stands in it. -/
theorem stands_parsed (h : ((ofOptions options).parsed text).result = some root) :
    Query.Stands (.between 0 text.length) root := by
  obtain ⟨_, hlocated, htokens, _⟩ := derived_parsed h
  have hlex := lex_result (ofOptions options) text
  have hliesIn : ∀ t ∈ root.tokens, t.range.LiesIn (.between 0 text.length) :=
    htokens ▸ liesIn_of_lex hlex
  have hstanding : Tree.Standing root.tokens :=
    ⟨htokens ▸ inOrder_of_lex hlex, fun t ht => (hliesIn t ht).self⟩
  exact ⟨Tree.nested_of_located hlocated hstanding,
    Tree.liesIn_of_located hlocated hstanding hliesIn⟩

/-- The items of a text are those of its tree, whose nodes stand one behind the other. -/
theorem exists_nodes (h : ((ofOptions options).parsed text).result = some root) :
    ∃ nodes, Query.itemNodes root = .ok nodes ∧
      nodes.mapM Query.readItem = .ok ((ofOptions options).items text) ∧
      (∀ n ∈ nodes, Query.Stands (.between 0 text.length) n) ∧ Query.Apart nodes := by
  obtain ⟨nodes, items, hnodes, hitems⟩ := exists_items (derived_parsed h)
  have hread : (ofOptions options).items text = items := by
    simp only [Compiler.items, h, hnodes]
    exact Understood.filterMap_toOption_of_mapM hitems
  exact ⟨nodes, hnodes, hread ▸ hitems, Query.apart_of_itemNodes (stands_parsed h) hnodes⟩

/-- **The items of a text** hold their parts, and stand one behind the other. -/
theorem apart_items (options : CompilerOptions) (text : String) :
    (∀ i ∈ (ofOptions options).items text, i.Within i.range) ∧
      ((ofOptions options).items text).Pairwise fun i j => i.range.stopOrNext ≤ j.range.start := by
  cases h : ((ofOptions options).parsed text).result with
  | some root =>
    obtain ⟨nodes, _, hitems, hstands, hapart⟩ := exists_nodes h
    exact Query.apart_of_readItem hstands hapart hitems
  | none =>
    have hnone : (ofOptions options).items text = [] := by rw [items, h]
    rw [hnone]
    exact ⟨fun _ hi => (by cases hi), .nil⟩

/-- **What analysis finds** stands in the text, and its errors are what is wrong with the items. -/
theorem within_analyzed (options : CompilerOptions) (lookup : Lookup) (text : String)
    (clock : Int) :
    ((ofOptions options).analyzed lookup text clock).errors =
        ((ofOptions options).items text).filterMap (Analysis.fault? lookup options clock) ∧
      (∀ f ∈ ((ofOptions options).analyzed lookup text clock).warnings ++
          ((ofOptions options).analyzed lookup text clock).errors,
        f.range.LiesIn (.between 0 text.length)) ∧
      ∀ m ∈ ((ofOptions options).analyzed lookup text clock).result, ∀ c ∈ m.elements,
        c.range.LiesIn (.between 0 text.length) := by
  cases h : ((ofOptions options).parsed text).result with
  | some root =>
    obtain ⟨nodes, hnodes, hitems, hstands, _⟩ := exists_nodes h
    rw [analyzed, h]
    exact within_analyze hnodes hitems hstands
  | none =>
    rw [analyzed, items, h]
    exact ⟨rfl, fun _ hf => (by cases hf), fun _ hm => (by cases hm)⟩

/-- **What planning warns of** stands in the text, if it has a place. -/
theorem liesIn_planned {f : PlanningFault} (h : f ∈ (ofOptions options).planned lookup text clock)
    {r : Span} (hr : f.range = some r) : r.LiesIn (.between 0 text.length) := by
  unfold planned at h
  split at h
  · rename_i m hm
    obtain ⟨c, hc, rfl⟩ := range_of_mem_warnings h hr
    have hwithin := (within_analyzed options lookup text clock).2.2
    rw [understand, front_eq] at hm
    unfold analyzed at hwithin
    cases hroot : ((ofOptions options).parsed text).result with
    | some root =>
      rw [hroot] at hm hwithin
      exact hwithin m hm c hc
    | none =>
      simp only [hroot] at hm
      split at hm
      · obtain rfl := Option.some.inj hm
        cases hc
      · cases hm
  · cases h

/-! ## The contract of ranges -/

/-- **Diagnostics point into the text, and those of analysis follow the items.** For every text,
all options and every lookup: a range that a warning or an error of the compilation carries lies
within the text, and a single position is not behind its end; the semantic errors are what is wrong
with the items of the text, each lying inside the range of its item; and so they are listed in
strictly increasing order, and do not overlap. -/
theorem compile_ranges (options : CompilerOptions) (lookup : Lookup) (text : String)
    (clock : Int) :
    (∀ f ∈ ((ofOptions options).compile lookup text clock).warnings ++
        ((ofOptions options).compile lookup text clock).errors,
      ∀ r ∈ f.diagnostic.range, r.IsInText text.length) ∧
    ((ofOptions options).compile lookup text clock).errors.filterMap Fault.semantic? =
      ((ofOptions options).items text).filterMap (Analysis.fault? lookup options clock) ∧
    (∀ i ∈ (ofOptions options).items text, ∀ f ∈ Analysis.fault? lookup options clock i,
      f.range.LiesIn i.range) ∧
    (((ofOptions options).compile lookup text clock).errors.filterMap Fault.semantic?).Pairwise
      fun e f => e.range.start < f.range.start ∧ e.range.stopOrNext ≤ f.range.start := by
  obtain ⟨herrors, hfound, _⟩ := within_analyzed options lookup text clock
  obtain ⟨hwithin, hapart⟩ := apart_items options text
  have hinside : ∀ i ∈ (ofOptions options).items text, ∀ f ∈ Analysis.fault? lookup options clock i,
      f.range.LiesIn i.range := fun i hi _ hf => Analysis.liesIn_of_fault? (hwithin i hi) hf
  have hsemantic :
      ((ofOptions options).compile lookup text clock).errors.filterMap Fault.semantic? =
      ((ofOptions options).items text).filterMap (Analysis.fault? lookup options clock) := by
    rw [errors_compile, filterMap_semantic?_inOrder, herrors]
  refine ⟨?_, hsemantic, hinside, ?_⟩
  · rintro f hf r hr
    rw [warnings_compile, errors_compile, inOrder] at hf
    simp only [List.mem_append, List.mem_map] at hf hfound
    rcases hf with ((⟨f, h, rfl⟩ | ⟨f, h, rfl⟩) | ⟨f, h, rfl⟩) |
      (⟨f, h, rfl⟩ | ⟨f, h, rfl⟩) | ⟨f, h, rfl⟩
    · obtain rfl := Option.some.inj hr
      exact isInText_of_mem_lex (List.mem_append_left _ h)
    · obtain rfl := Option.some.inj hr
      exact (hfound f (.inl h)).isInText
    · exact (liesIn_planned h hr).isInText
    · obtain rfl := Option.some.inj hr
      exact isInText_of_mem_lex (List.mem_append_right _ h)
    · obtain rfl := Option.some.inj hr
      exact isInText_parsed h
    · obtain rfl := Option.some.inj hr
      exact (hfound f (.inr h)).isInText
  · rw [hsemantic]
    refine List.pairwise_filterMap.mpr (hapart.imp_of_mem fun hi hj hij e he f hf => ?_)
    have hstop := (hinside _ hi e he).stop_le
    have hstart := (hinside _ hj f hf).start_le
    obtain ⟨a, b, hab, _, hlt, _⟩ := hinside _ hi e he
    rw [hab] at hstop ⊢
    rw [Span.stopOrNext_between] at hstop ⊢
    rw [Span.start_between]
    omega

theorem parsed_sunMoon : ((ofOptions .default).parsed "sun moon").result = some sunMoon := by
  have hgrammar : (ofOptions .default).grammar = Query.grammar := by simp only [ofOptions]
  have hderived : Query.Derived (.nonterminal "SEQUENCE") ((ofOptions .default).tokens "sun moon")
      sunMoon :=
    ⟨by decide, by simp [sunMoon, wordItem, onlyItem, Query.nodeOf, Tree.Located, Tree.AllLocated],
      by decide +kernel, rfl⟩
  rw [parsed, hgrammar, Query.parse_eq_of_derived hderived]

/-- Where no names are known, each word of `sun moon` has an error that stands where it does. -/
theorem compile_ranges_sunMoon :
    (((ofOptions .default).compile .empty "sun moon" 2021).errors.filterMap Fault.semantic?).map
        SemanticFault.range = [.between 0 3, .between 4 8] ∧
      (((ofOptions .default).compile .empty "sun moon" 2021).errors.filterMap
        Fault.semantic?).Pairwise fun e f =>
          e.range.start < f.range.start ∧ e.range.stopOrNext ≤ f.range.start := by
  obtain ⟨_, hsemantic, _, hordered⟩ := compile_ranges .default .empty "sun moon" 2021
  refine ⟨?_, hordered⟩
  rw [hsemantic, items, parsed_sunMoon]
  decide

end Compiler

end PixQuery
