import PixQuery.Proofs.Meaning.Scopes
import PixQuery.Proofs.Plan.Rereading

/-!
# The round trip of a plan

A plan is written as a query, and the query is compiled again. The text is lexed and parsed as the
items that were written, and what these are understood as makes up the plan that comes back: sort
keys, free text and filters are as they were, and names are what the lookup finds for them now.

Results:
* `result_analyze`: a query is understood item by item.
* `Plan.compile_query`: the plan that comes back.
-/

namespace PixQuery

open Query (Item readItem itemNodes)

/-! ## Item by item -/

namespace Analysis

variable {lookup : Lookup} {options : CompilerOptions} {clock : Int}

/-- A meaning with what an item adds to it, if the item is understood. -/
def extend (lookup : Lookup) (options : CompilerOptions) (clock : Int) (m : Meaning) (j : Item) :
    Option Meaning :=
  (analyzeItem lookup options clock (m.sorts.map SortItem.key) j).2.toOption.map
    (Contribution.addTo m)

/-- Once an item was not understood, the query is not. -/
theorem errors_foldl_addItem {p : Progress} (h : p.findings.errors ≠ []) (nodes : List Tree) :
    (nodes.foldl (addItem lookup options clock) p).findings.errors ≠ [] := by
  rw [(foldl_addItem_beside nodes p).errors]
  exact List.append_ne_nil_of_left_ne_nil h _

theorem finish_foldl_addItem {items : List Item} {nodes : List Tree}
    (h : List.Forall₂ (fun j node => readItem node = .ok j) items nodes) (p : Progress)
    (hp : p.findings.errors = []) :
    let q := nodes.foldl (addItem lookup options clock) p
    (q.findings.finish (some q.meaning)).result =
      items.foldlM (extend lookup options clock) p.meaning := by
  induction h generalizing p with
  | nil => simp only [List.foldl_nil, Findings.finish, hp, List.isEmpty_nil, if_true]; rfl
  | @cons j node items nodes hnode _ ih =>
    rw [List.foldl_cons, List.foldlM_cons]
    cases hj : (analyzeItem lookup options clock (p.meaning.sorts.map SortItem.key) j).2 with
    | error fault =>
      have hne : (addItem lookup options clock p node).findings.errors ≠ [] := by
        simp only [addItem, hnode, hj]
        exact List.append_ne_nil_of_right_ne_nil _ (List.cons_ne_nil fault [])
      have herrors := @errors_foldl_addItem lookup options clock _ hne nodes
      have hnone : extend lookup options clock p.meaning j = none := by
        rw [extend, hj]
        rfl
      rw [hnone]
      simp only [Findings.finish]
      rw [if_neg (by simpa using herrors)]
      rfl
    | ok c =>
      have hsome : extend lookup options clock p.meaning j = some (c.addTo p.meaning) := by
        rw [extend, hj]
        rfl
      have hnext : (addItem lookup options clock p node).findings.errors = [] ∧
          (addItem lookup options clock p node).meaning = c.addTo p.meaning := by
        simp only [addItem, hnode, hj]
        exact ⟨(congrArg Findings.errors (Findings.foldl_warn _ _)).trans hp, trivial⟩
      rw [hsome, ← hnext.2]
      exact ih _ hnext.1

end Analysis

/-- **A query is understood item by item.** -/
theorem result_analyze {lookup : Lookup} {options : CompilerOptions} {clock : Int} {root : Tree}
    {nodes : List Tree} {items : List Item} (hnodes : itemNodes root = .ok nodes)
    (hitems : List.Forall₂ (fun j node => readItem node = .ok j) items nodes) :
    (analyze lookup options clock root).result =
      items.foldlM (Analysis.extend lookup options clock) .empty := by
  rw [analyze, hnodes]
  exact Analysis.finish_foldl_addItem hitems ⟨.empty, .empty⟩ rfl

theorem errors_of_analyze {lookup : Lookup} {options : CompilerOptions} {clock : Int}
    {root : Tree} {m : Meaning} (h : (analyze lookup options clock root).result = some m) :
    (analyze lookup options clock root).errors = [] := by
  obtain ⟨nodes, hnodes, herrors, _⟩ := exists_of_analyze h
  rw [analyze, hnodes]
  exact herrors

namespace Compiler

variable {c : Compiler} {lookup : Lookup} {clock : Int}

/-- A text that is lexed and parsed without a fault is compiled into the plan of its meaning. -/
theorem result_compile {text : String} {tokens : List Token} {t : Tree}
    (hlex : PixQuery.lex c.options.lexical text = ⟨some tokens, [], []⟩)
    (hparse : c.grammar.parse tokens = ⟨some t, [], []⟩) :
    (c.compile lookup text clock).result =
      (PixQuery.analyze lookup c.options clock t).result.map .ofMeaning := by
  have hlexed : c.lex text = ⟨some tokens, [], []⟩ := hlex
  cases hm : (PixQuery.analyze lookup c.options clock t).result with
  | none =>
    simp only [compile, understand, front, hlexed, Option.getD_some, hparse, hm, Findings.finish,
      ite_self]
    rfl
  | some m =>
    have herrors := errors_of_analyze hm
    simp only [compile, understand, front, hlexed, Option.getD_some, hparse, hm, Findings.finish,
      Findings.absorb, Findings.merge, Findings.ofReport, Findings.empty, Meaning.plan, herrors]
    rfl

/-- A text that is lexed and parsed without an error means what its tree means. -/
theorem result_analyze {text : String} {tokens : List Token} {t : Tree}
    (hlex : PixQuery.lex c.options.lexical text = ⟨some tokens, [], []⟩)
    (hparse : c.grammar.parse tokens = ⟨some t, [], []⟩) :
    (c.analyze lookup text clock).result = (PixQuery.analyze lookup c.options clock t).result := by
  have hlexed : c.lex text = ⟨some tokens, [], []⟩ := hlex
  cases hm : (PixQuery.analyze lookup c.options clock t).result with
  | none => simp only [analyze, understand, front, hlexed, Option.getD_some, hparse, hm,
      Findings.finish, ite_self]
  | some m =>
    have herrors := errors_of_analyze hm
    simp only [analyze, understand, front, hlexed, Option.getD_some, hparse, hm, Findings.finish,
      Findings.absorb, Findings.merge, Findings.ofReport, Findings.empty, herrors]
    rfl

/-- A text without tokens asks for nothing. -/
theorem result_compile_of_empty {text : String}
    (hlex : PixQuery.lex c.options.lexical text = ⟨some [], [], []⟩) :
    (c.compile lookup text clock).result = some ⟨[], [], []⟩ := by
  have hlexed : c.lex text = ⟨some [], [], []⟩ := hlex
  have hparse : c.grammar.parse [] = ⟨none, [], []⟩ := rfl
  simp only [compile, understand, front, hlexed, Option.getD_some, hparse]
  rfl

end Compiler

/-! ## Meanings without ranges -/

/-- What a plan takes from a meaning: everything but the ranges. -/
structure Outline where
  sorts : List SortItem
  elements : List (ElementKind × ElementItem)
  filters : List FilterGroup

/-- The meaning without ranges. -/
def Meaning.outline (m : Meaning) : Outline :=
  ⟨m.sorts, m.elements.map fun c => (c.kind, Plan.item c),
    m.filters.map fun c => ⟨c.exclude, c.union⟩⟩

theorem Plan.ofMeaning_eq (m : Meaning) : Plan.ofMeaning m =
    ⟨m.outline.sorts, m.outline.elements.foldl Plan.addPair [], m.outline.filters⟩ := by
  rw [ofMeaning, groups_eq_foldl]
  rfl

/-- An item about names with its kind, when its names are looked up again. -/
def rereadPair (lookup : Lookup) (pair : ElementKind × ElementItem) :
    Option (ElementKind × ElementItem) :=
  (pair.2.reread lookup pair.1).map (Prod.mk pair.1)

namespace Analysis

variable {lookup : Lookup} {options : CompilerOptions} {clock : Int} {P : Kind → Entity → Prop}

theorem extend_sortsItem {sorts : List SortItem} (hn : (sorts.map SortItem.key).Nodup) {j : Item}
    (h : j.unplaced = (sortsItem sorts).unplaced) :
    extend lookup options clock .empty j = some ⟨sorts, [], []⟩ := by
  show (analyzeItem lookup options clock [] j).2.toOption.map _ = _
  rw [analyzeItem_sortsItem hn h]
  rfl

/-- Items about names add what their names are looked up as. -/
theorem foldlM_elements (hP : ∀ e, P .sourceTag e → e.kind = .sourceTag)
    {pairs : List (ElementKind × ElementItem)} {js : List Item}
    (h : List.Forall₂ (fun q j => j.unplaced = (q.2.queryItem q.1).unplaced) pairs js)
    (hpairs : ∀ q ∈ pairs, q.1.Holds P q.2.union) (m : Meaning) :
    (js.foldlM (extend lookup options clock) m).map Meaning.outline =
      (pairs.mapM (rereadPair lookup)).map fun qs =>
        { m.outline with elements := m.outline.elements ++ qs } := by
  induction h generalizing m with
  | nil => simp [Meaning.outline]
  | @cons q j pairs js hj _ ih =>
    have hstep : extend lookup options clock m j = (q.2.reread lookup q.1).map fun i =>
        { m with elements := m.elements ++ [⟨q.1, i.exclude, i.union, j.range⟩] } := by
      rw [extend, analyzeItem_elementItem hP (hpairs q List.mem_cons_self) hj, Option.map_map]
      rfl
    rw [List.foldlM_cons, List.mapM_cons, hstep, rereadPair]
    cases q.2.reread lookup q.1 with
    | none => rfl
    | some i =>
      show Option.map _ (js.foldlM (extend lookup options clock) _) = _
      rw [ih fun r hr => hpairs r (List.mem_cons_of_mem q hr)]
      show _ = Option.map _ ((pairs.mapM (rereadPair lookup)).bind fun qs => some ((q.1, i) :: qs))
      cases pairs.mapM (rereadPair lookup) with
      | none => rfl
      | some qs => simp [Meaning.outline, Plan.item]

/-- Items of filters add these filters if they are readable. -/
theorem foldlM_filters {gs : List FilterGroup} {js : List Item}
    (h : List.Forall₂ (fun g j => j.unplaced = g.queryItem.unplaced) gs js)
    (hgs : ∀ g ∈ gs, g.union ≠ [] ∧ ∀ f ∈ g.union, f.Fits)
    (hr : ∀ g ∈ gs, ∀ f ∈ g.union, f.IsReadable) (m : Meaning) :
    (js.foldlM (extend lookup options clock) m).map Meaning.outline =
      some { m.outline with filters := m.outline.filters ++ gs } := by
  induction h generalizing m with
  | nil => simp [Meaning.outline]
  | @cons g j gs js hj _ ih =>
    obtain ⟨hne, hfits⟩ := hgs g List.mem_cons_self
    obtain ⟨fields, hitem, hfields⟩ := @analyzeItem_of_filters lookup options clock
      (m.sorts.map SortItem.key) j g hne hj
    have hexclude : j.exclude = g.exclude := (Query.Item.of_unplaced hj).1
    have hstep : extend lookup options clock m j =
        some { m with filters := m.filters ++ [⟨g.exclude, g.union, j.range⟩] } := by
      rw [extend, hitem, filterItem_of_isReadable hne hfits
        (hr g List.mem_cons_self) hfields, hexclude]
      rfl
    rw [List.foldlM_cons, hstep]
    show Option.map _ (js.foldlM (extend lookup options clock) _) = _
    rw [ih (fun g' hg' => hgs g' (List.mem_cons_of_mem g hg'))
      fun g' hg' => hr g' (List.mem_cons_of_mem g hg')]
    simp [Meaning.outline]

/-- If items of filters are understood, the filters are readable. -/
theorem isReadable_of_foldlM {gs : List FilterGroup} {js : List Item}
    (h : List.Forall₂ (fun g j => j.unplaced = g.queryItem.unplaced) gs js)
    (hgs : ∀ g ∈ gs, g.union ≠ [] ∧ ∀ f ∈ g.union, f.Fits) {m m' : Meaning}
    (hm : js.foldlM (extend lookup options clock) m = some m') :
    ∀ g ∈ gs, ∀ f ∈ g.union, f.IsReadable := by
  induction h generalizing m with
  | nil => exact fun g hg => by cases hg
  | @cons g j gs js hj _ ih =>
    obtain ⟨hne, hfits⟩ := hgs g List.mem_cons_self
    obtain ⟨fields, hitem, hfields⟩ := @analyzeItem_of_filters lookup options clock
      (m.sorts.map SortItem.key) j g hne hj
    rw [List.foldlM_cons] at hm
    obtain ⟨next, hnext, hm⟩ := Option.bind_eq_some_iff.mp hm
    rw [extend, hitem] at hnext
    obtain ⟨c, hc, _⟩ := Option.map_eq_some_iff.mp hnext
    intro g' hg'
    rcases List.mem_cons.mp hg' with rfl | hg'
    · refine @isReadable_of_filterItem options clock j g' hfits fields hfields c ?_
      cases hitem' : filterItem options clock j fields with
      | error fault => rw [hitem'] at hc; cases hc
      | ok c' =>
        rw [hitem'] at hc
        exact congrArg Except.ok (Option.some.inj hc)
    · exact ih (fun g' hg' => hgs g' (List.mem_cons_of_mem g hg')) hm g' hg'

end Analysis

/-! ## Groups that are looked up again -/

/-- A group when the names in it are looked up again. -/
def ElementGroup.reread (lookup : Lookup) (g : ElementGroup) : Option ElementGroup :=
  (g.items.mapM (ElementItem.reread lookup g.kind)).map fun items => ⟨g.kind, items⟩

theorem mapM_pairs (lookup : Lookup) (g : ElementGroup) :
    g.pairs.mapM (rereadPair lookup) = (g.reread lookup).map ElementGroup.pairs := by
  obtain ⟨kind, items⟩ := g
  rw [ElementGroup.pairs, ElementGroup.reread, Option.map_map]
  induction items with
  | nil => rfl
  | cons i items ih =>
    simp only [List.map_cons, List.mapM_cons, rereadPair] at ih ⊢
    rw [ih]
    cases i.reread lookup kind with
    | none => rfl
    | some i' => cases items.mapM (ElementItem.reread lookup kind) <;> rfl

theorem mapM_flatMap_pairs (lookup : Lookup) (gs : List ElementGroup) :
    (gs.flatMap ElementGroup.pairs).mapM (rereadPair lookup) =
      (gs.mapM (ElementGroup.reread lookup)).map fun gs => gs.flatMap ElementGroup.pairs := by
  induction gs with
  | nil => rfl
  | cons g gs ih =>
    rw [List.flatMap_cons, List.mapM_append, mapM_pairs, ih, List.mapM_cons]
    cases g.reread lookup with
    | none => rfl
    | some g' => cases gs.mapM (ElementGroup.reread lookup) <;> rfl

theorem ElementGroup.reread_eq_some {lookup : Lookup} {g g' : ElementGroup}
    (h : g.reread lookup = some g') : g'.kind = g.kind ∧ (g.items ≠ [] → g'.items ≠ []) := by
  obtain ⟨items, hitems, rfl⟩ := Option.map_eq_some_iff.mp h
  refine ⟨rfl, fun hne => ?_⟩
  obtain ⟨i, is, hcons⟩ := List.exists_cons_of_ne_nil hne
  rw [hcons, List.mapM_cons] at hitems
  obtain ⟨i', _, hitems⟩ := Option.bind_eq_some_iff.mp hitems
  obtain ⟨is', _, hitems⟩ := Option.bind_eq_some_iff.mp hitems
  obtain rfl := Option.some.inj hitems
  exact List.cons_ne_nil i' is'

/-- Groups keep their kinds and do not become empty. -/
theorem isGrouped_of_mapM_reread {lookup : Lookup} : ∀ {gs gs' : List ElementGroup},
    gs.mapM (ElementGroup.reread lookup) = some gs' → (∀ g ∈ gs, g.items ≠ []) →
      gs'.map ElementGroup.kind = gs.map ElementGroup.kind ∧ ∀ g ∈ gs', g.items ≠ []
  | [], gs', h, _ => by
    obtain rfl := Option.some.inj h
    exact ⟨rfl, fun g hg => by cases hg⟩
  | g :: gs, gs', h, hitems => by
    rw [List.mapM_cons] at h
    obtain ⟨g', hg', h⟩ := Option.bind_eq_some_iff.mp h
    obtain ⟨rest, hrest, h⟩ := Option.bind_eq_some_iff.mp h
    obtain rfl := Option.some.inj h
    obtain ⟨hkind, hne⟩ := ElementGroup.reread_eq_some hg'
    obtain ⟨hkinds, hnes⟩ := isGrouped_of_mapM_reread hrest fun g' hg' =>
      hitems g' (List.mem_cons_of_mem g hg')
    refine ⟨by rw [List.map_cons, List.map_cons, hkind, hkinds], fun g'' hg'' => ?_⟩
    rcases List.mem_cons.mp hg'' with rfl | hg''
    · exact hne (hitems g List.mem_cons_self)
    · exact hnes g'' hg''

/-- All members stay as they are if and only if the whole list does. -/
theorem mapM_eq_some_self_iff {α : Type} {f : α → Option α} : ∀ {as : List α},
    as.mapM f = some as ↔ ∀ a ∈ as, f a = some a
  | [] => ⟨(fun _ a ha => by cases ha), fun _ => rfl⟩
  | a :: as => by
    rw [List.forall_mem_cons, ← mapM_eq_some_self_iff, List.mapM_cons]
    constructor
    · intro h
      obtain ⟨b, hb, h⟩ := Option.bind_eq_some_iff.mp h
      obtain ⟨bs, hbs, h⟩ := Option.bind_eq_some_iff.mp h
      obtain ⟨rfl, rfl⟩ := List.cons.inj (Option.some.inj h)
      exact ⟨hb, hbs⟩
    · rintro ⟨ha, has⟩
      rw [ha, has]
      rfl

/-- A group stays as it is if and only if its items do. -/
theorem ElementGroup.reread_eq_some_self_iff {lookup : Lookup} {g : ElementGroup} :
    g.reread lookup = some g ↔ ∀ i ∈ g.items, i.reread lookup g.kind = some i := by
  rw [← mapM_eq_some_self_iff, reread, Option.map_eq_some_iff]
  constructor
  · rintro ⟨items, hitems, hg⟩
    rw [hitems, ← hg]
  · exact fun h => ⟨g.items, h, rfl⟩

/-! ## Plans that come back -/

namespace Plan

variable {P : Kind → Entity → Prop} {year : Int} {p : Plan} {lookup : Lookup}
  {options : CompilerOptions} {clock : Int}

theorem isComplete_predicateOf (qs : List Query.Part) : (predicateOf qs).IsComplete := by
  match qs with
  | [] => trivial
  | [q] => exact List.cons_ne_nil _ _
  | _ :: _ :: _ => trivial

theorem isComplete_phrase {f : Filter} {r : Query.Relation} (h : f.phrase.relation = some r) :
    r.IsComplete := by
  cases f with
  | equal field values =>
    obtain rfl := Option.some.inj h
    exact isComplete_predicateOf _
  | similar field patterns =>
    obtain rfl := Option.some.inj h
    exact isComplete_predicateOf _
  | range field lower upper =>
    match lower, upper with
    | none, none => cases h
    | some b, none =>
      obtain rfl := Option.some.inj h
      exact isComplete_predicateOf [b.value.part field]
    | none, some e =>
      obtain rfl := Option.some.inj h
      exact isComplete_predicateOf [e.value.part field]
    | some b, some e =>
      obtain rfl := Option.some.inj h
      trivial
  | flag field => cases h
  | composition field value =>
    obtain rfl := Option.some.inj h
    trivial

/-- The items of a typed plan can be parsed, if no item about names is empty. -/
theorem isComplete_of_mem_items (hp : p.IsTyped P year)
    (hunions : ∀ g ∈ p.elements, ∀ i ∈ g.items, i.union ≠ []) {i : Item} (h : i ∈ p.items) :
    i.IsComplete := by
  rw [items, List.mem_append, List.mem_append] at h
  rcases h with (h | h) | h
  · split at h
    · cases h
    · rename_i hsorts
      obtain rfl := List.mem_singleton.mp h
      refine ⟨List.cons_ne_nil _ _, fun q hq r hr => ?_⟩
      obtain rfl := List.mem_singleton.mp hq
      obtain rfl := Option.some.inj hr
      exact mt List.map_eq_nil_iff.mp (by simpa using hsorts)
  · obtain ⟨g, hg, h⟩ := List.mem_flatMap.mp h
    obtain ⟨e, he, rfl⟩ := List.mem_map.mp h
    refine ⟨mt List.map_eq_nil_iff.mp (hunions g hg e he), fun q hq r hr => ?_⟩
    obtain ⟨v, _, rfl⟩ := List.mem_map.mp hq
    cases v <;> cases hr
  · obtain ⟨g, hg, rfl⟩ := List.mem_map.mp h
    refine ⟨mt List.map_eq_nil_iff.mp (hp.filters g hg).1, fun q hq r hr => ?_⟩
    obtain ⟨f, _, rfl⟩ := List.mem_map.mp hq
    exact isComplete_phrase hr

theorem exists_read {items : List Item} {nodes : List Tree}
    (h : List.Forall₂ (fun i node => ∃ j, readItem node = .ok j ∧ j.unplaced = i.unplaced)
      items nodes) :
    ∃ js, List.Forall₂ (fun i j => j.unplaced = i.unplaced) items js ∧
      List.Forall₂ (fun j node => readItem node = .ok j) js nodes := by
  induction h with
  | nil => exact ⟨[], .nil, .nil⟩
  | cons hi _ ih =>
    obtain ⟨j, hj, hji⟩ := hi
    obtain ⟨js, hjs, hread⟩ := ih
    exact ⟨j :: js, .cons hji hjs, .cons hj hread⟩

/-- **The items that come back are those that were written**, but for the ranges. The options have
to cut the query of the plan as the default options do. -/
theorem exists_items (hlex : lex options.lexical p.query = lex default p.query)
    (hcomplete : ∀ i ∈ p.items, i.IsComplete) :
    ∃ js, List.Forall₂ (fun i j => j.unplaced = i.unplaced) p.items js ∧
      ((Compiler.ofOptions options).compile lookup p.query clock).result =
        (js.foldlM (Analysis.extend lookup options clock) .empty).map .ofMeaning := by
  obtain ⟨tokens, hlexed, htokens⟩ := p.lex_query
  rw [← hlex] at hlexed
  by_cases hne : p.items = []
  · rw [hne] at htokens ⊢
    obtain rfl : tokens = [] := List.map_eq_nil_iff.mp htokens
    exact ⟨[], .nil, Compiler.result_compile_of_empty hlexed⟩
  · obtain ⟨t, nodes, hparse, hnodes, hitems⟩ := Query.parse_script hne hcomplete htokens
    obtain ⟨js, hjs, hread⟩ := exists_read hitems
    refine ⟨js, hjs, ?_⟩
    have hgrammar : (Compiler.ofOptions options).grammar = Query.grammar := by
      simp only [Compiler.ofOptions]
    rw [← hgrammar] at hparse
    exact (Compiler.result_compile hlexed hparse).trans
      (congrArg (Option.map Plan.ofMeaning) (result_analyze hnodes hread))

/-- All dates in the filters are read back from their texts. -/
def IsReadable (p : Plan) : Prop := ∀ g ∈ p.filters, ∀ f ∈ g.union, f.IsReadable

theorem forall₂_append {α β : Type} {R : α → β → Prop} : ∀ {as as' : List α} {bs : List β},
    List.Forall₂ R (as ++ as') bs →
      ∃ cs cs', bs = cs ++ cs' ∧ List.Forall₂ R as cs ∧ List.Forall₂ R as' cs'
  | [], _, bs, h => ⟨[], bs, rfl, .nil, h⟩
  | _ :: _, _, _ :: _, .cons ha has => by
    obtain ⟨cs, cs', rfl, hcs, hcs'⟩ := forall₂_append has
    exact ⟨_ :: cs, cs', rfl, .cons ha hcs, hcs'⟩

/-- The items of a plan that were read: sort keys, names and filters. -/
theorem exists_sections {js : List Item}
    (h : List.Forall₂ (fun i j => j.unplaced = i.unplaced) p.items js) : ∃ ss es fs,
      js = ss ++ es ++ fs ∧
      List.Forall₂ (fun i j => j.unplaced = i.unplaced)
        (if p.sorts.isEmpty then [] else [sortsItem p.sorts]) ss ∧
      List.Forall₂ (fun q j => j.unplaced = (q.2.queryItem q.1).unplaced)
        (p.elements.flatMap ElementGroup.pairs) es ∧
      List.Forall₂ (fun g j => j.unplaced = g.queryItem.unplaced) p.filters fs := by
  rw [items] at h
  obtain ⟨cs, fs, rfl, hcs, hfs⟩ := forall₂_append h
  obtain ⟨ss, es, rfl, hss, hes⟩ := forall₂_append hcs
  refine ⟨ss, es, fs, rfl, hss, ?_, List.forall₂_map_left_iff.mp hfs⟩
  have hpairs : (p.elements.flatMap fun g => g.items.map (ElementItem.queryItem g.kind)) =
      (p.elements.flatMap ElementGroup.pairs).map fun q => q.2.queryItem q.1 := by
    rw [List.map_flatMap]
    congr 1
    funext g
    rw [ElementGroup.pairs, List.map_map]
    rfl
  rw [hpairs] at hes
  exact List.forall₂_map_left_iff.mp hes

theorem foldlM_sorts (hn : (p.sorts.map SortItem.key).Nodup) {ss : List Item}
    (h : List.Forall₂ (fun i j => j.unplaced = i.unplaced)
      (if p.sorts.isEmpty then [] else [sortsItem p.sorts]) ss) :
    ss.foldlM (Analysis.extend lookup options clock) .empty = some ⟨p.sorts, [], []⟩ := by
  split at h
  · rename_i hempty
    obtain rfl := List.forall₂_nil_left_iff.mp h
    rw [List.isEmpty_iff.mp hempty]
    rfl
  · obtain ⟨j, rest, hj, hrest, rfl⟩ := List.forall₂_cons_left_iff.mp h
    obtain rfl := List.forall₂_nil_left_iff.mp hrest
    rw [List.foldlM_cons, Analysis.extend_sortsItem hn hj]
    rfl

/-- What the items of a plan are understood as: its sort keys, the groups that the lookup finds for
its names, and its filters if they are readable. -/
theorem foldlM_items (hP : ∀ e, P .sourceTag e → e.kind = .sourceTag) (hp : p.IsTyped P year)
    {js : List Item} (h : List.Forall₂ (fun i j => j.unplaced = i.unplaced) p.items js) :
    (p.IsReadable → (js.foldlM (Analysis.extend lookup options clock) .empty).map ofMeaning =
        (p.elements.mapM (ElementGroup.reread lookup)).map fun gs => { p with elements := gs }) ∧
      ∀ m, js.foldlM (Analysis.extend lookup options clock) .empty = some m → p.IsReadable := by
  obtain ⟨ss, es, fs, rfl, hss, hes, hfs⟩ := exists_sections h
  have hholds : ∀ q ∈ p.elements.flatMap ElementGroup.pairs, q.1.Holds P q.2.union := by
    intro q hq
    obtain ⟨g, hg, hq⟩ := List.mem_flatMap.mp hq
    obtain ⟨i, hi, rfl⟩ := List.mem_map.mp hq
    exact hp.elements.holds g hg i hi
  have hfits : ∀ g ∈ p.filters, g.union ≠ [] ∧ ∀ f ∈ g.union, f.Fits := fun g hg =>
    ⟨(hp.filters g hg).1, fun f hf => ((hp.filters g hg).2 f hf).fits⟩
  have helements := @Analysis.foldlM_elements lookup options clock P hP _ _ hes hholds
    ⟨p.sorts, [], []⟩
  rw [mapM_flatMap_pairs] at helements
  rw [List.foldlM_append, List.foldlM_append, foldlM_sorts hp.sorts hss]
  simp only [Option.bind_eq_bind, Option.bind_some]
  constructor
  · intro hr
    cases hgs : p.elements.mapM (ElementGroup.reread lookup) with
    | none =>
      rw [hgs] at helements
      rw [Option.map_eq_none_iff.mp helements]
      rfl
    | some gs =>
      rw [hgs] at helements
      obtain ⟨m, hm, houtline⟩ := Option.map_eq_some_iff.mp helements
      obtain ⟨hkinds, hitems⟩ := isGrouped_of_mapM_reread hgs hp.elements.items
      rw [hm, Option.bind_some]
      have hfilters := @Analysis.foldlM_filters lookup options clock _ _ hfs hfits hr m
      obtain ⟨m', hm', houtline'⟩ := Option.map_eq_some_iff.mp hfilters
      rw [hm', Option.map_some, ofMeaning_eq, houtline', houtline]
      show some (Plan.mk p.sorts ((gs.flatMap ElementGroup.pairs).foldl addPair []) p.filters) = _
      rw [foldl_flatMap_pairs (hkinds ▸ hp.elements.kinds) hitems]
      rfl
  · intro m hm
    obtain ⟨m', _, hm'⟩ := Option.bind_eq_some_iff.mp hm
    exact Analysis.isReadable_of_foldlM hfs hfits hm'

/-- The plan that comes back under any options that cut the query as the default options do. -/
theorem result_compile_query_of_lex (hlex : lex options.lexical p.query = lex default p.query)
    (hP : ∀ e, P .sourceTag e → e.kind = .sourceTag) (hp : p.IsTyped P year)
    (hunions : ∀ g ∈ p.elements, ∀ i ∈ g.items, i.union ≠ []) (hr : p.IsReadable) :
    ((Compiler.ofOptions options).compile lookup p.query clock).result =
      (p.elements.mapM (ElementGroup.reread lookup)).map fun gs => { p with elements := gs } := by
  obtain ⟨js, hjs, hresult⟩ := @exists_items p lookup options clock hlex
    fun i hi => isComplete_of_mem_items hp hunions hi
  rw [hresult]
  exact (foldlM_items hP hp hjs).1 hr

theorem isReadable_of_compile_query_of_lex
    (hlex : lex options.lexical p.query = lex default p.query)
    (hP : ∀ e, P .sourceTag e → e.kind = .sourceTag) (hp : p.IsTyped P year)
    (hunions : ∀ g ∈ p.elements, ∀ i ∈ g.items, i.union ≠ []) {q : Plan}
    (h : ((Compiler.ofOptions options).compile lookup p.query clock).result = some q) :
      p.IsReadable := by
  obtain ⟨js, hjs, hresult⟩ := @exists_items p lookup options clock hlex
    fun i hi => isComplete_of_mem_items hp hunions hi
  rw [hresult] at h
  obtain ⟨m, hm, _⟩ := Option.map_eq_some_iff.mp h
  exact (foldlM_items hP hp hjs).2 m hm

/-- **The plan that comes back** from the query that a plan is written as, if all its dates can be
read: sort keys and filters are as they were, and names are what the lookup finds for them now. -/
theorem result_compile_query (hlex : options.lexical = CompilerOptions.default.lexical)
    (hP : ∀ e, P .sourceTag e → e.kind = .sourceTag) (hp : p.IsTyped P year)
    (hunions : ∀ g ∈ p.elements, ∀ i ∈ g.items, i.union ≠ []) (hr : p.IsReadable) :
    ((Compiler.ofOptions options).compile lookup p.query clock).result =
      (p.elements.mapM (ElementGroup.reread lookup)).map fun gs => { p with elements := gs } :=
  result_compile_query_of_lex (congrArg (lex · p.query) hlex) hP hp hunions hr

/-- No plan comes back if a date cannot be read. -/
theorem isReadable_of_compile_query (hlex : options.lexical = CompilerOptions.default.lexical)
    (hP : ∀ e, P .sourceTag e → e.kind = .sourceTag) (hp : p.IsTyped P year)
    (hunions : ∀ g ∈ p.elements, ∀ i ∈ g.items, i.union ≠ []) {q : Plan}
    (h : ((Compiler.ofOptions options).compile lookup p.query clock).result = some q) :
      p.IsReadable :=
  isReadable_of_compile_query_of_lex (congrArg (lex · p.query) hlex) hP hp hunions h

end Plan

end PixQuery
