import PixQuery.Meaning.Analysis
import PixQuery.Proofs.Query.Members

/-!
# Items are scopes of their own

The items of a query are understood one behind the other, and one meaning and one list of findings
go through all of them. An item reads only the sort keys that are there, and they decide only which
of its own sort items are repeated. So what an item adds and what is wrong with it can be told from
the query that has no other item.

Results:
* `Analysis.amid_analyzeItem`: what the sort keys that are there change about an item.
* `Analysis.addItem_beside`: an item adds to a meaning what it means alone.
* `analyze_scopes`: the meaning and the errors of a query are those of its items.
-/

namespace PixQuery

open Query (Value Phrase Item)

/-! ## Sort keys that are there already -/

/-- The sort items whose keys are not present, each key where it stands first. -/
def distinctSorts : List OrderKey → List SortItem → List SortItem
  | _, [] => []
  | present, s :: ss =>
    if present.contains s.key then distinctSorts present ss
    else s :: distinctSorts (present ++ [s.key]) ss

theorem distinctSorts_append (present : List OrderKey) (ss ts : List SortItem) :
    distinctSorts present (ss ++ ts) = distinctSorts present ss ++
      distinctSorts (present ++ (distinctSorts present ss).map SortItem.key) ts := by
  induction ss generalizing present with
  | nil => simp [distinctSorts]
  | cons s ss ih =>
    rw [List.cons_append, distinctSorts, distinctSorts]
    split
    · exact ih present
    · simp [ih]

namespace Meaning

/-- A meaning with that of more items: their sort items join unless their keys are there. -/
def join (m n : Meaning) : Meaning :=
  ⟨m.sorts ++ distinctSorts (m.sorts.map SortItem.key) n.sorts, m.elements ++ n.elements,
    m.filters ++ n.filters⟩

@[simp] theorem join_empty (m : Meaning) : m.join empty = m := by
  simp [join, empty, distinctSorts]

end Meaning

namespace Findings

variable {ε : Type}

theorem foldl_warn (warnings : List ε) (f : Findings ε) :
    warnings.foldl warn f = ⟨f.warnings ++ warnings, f.errors⟩ := by
  induction warnings generalizing f with
  | nil => simp
  | cons w ws ih => simp [ih, warn]

end Findings

namespace Analysis

variable {lookup : Lookup} {options : CompilerOptions} {clock : Int} {present : List OrderKey}

/-- The warning of a sort item whose key is there. -/
def IsRepeat (w : SemanticFault) : Prop := ∃ item, w.cause = .sortItemRepeated item

/-- What is understood beside sort keys that are there, in comparison with what is understood alone:
the same fault, or what `keep` leaves of it, and one more warning for each sort item that it does
not leave. -/
structure Amid {α : Type} (keep : α → α) (size : α → Nat)
    (alone amid : List SemanticFault × Understood α) : Prop where
  outcome : amid.2 = alone.2.map keep
  warnings : alone.1.Sublist amid.1
  repeats : ∀ w ∈ amid.1, IsRepeat w
  removed : ∀ a, alone.2 = .ok a → amid.1.length + size (keep a) = alone.1.length + size a

/-- What does not look at sort keys is the same beside them. -/
theorem Amid.of_kept {α : Type} {keep : α → α} {size : α → Nat} {x : Understood α}
    (h : ∀ a, x = .ok a → keep a = a) : Amid keep size ([], x) ([], x) where
  outcome := by
    cases x with
    | error fault => rfl
    | ok a => exact congrArg Except.ok (h a rfl).symm
  warnings := List.Sublist.refl []
  repeats w hw := absurd hw List.not_mem_nil
  removed a ha := by rw [h a ha]

/-- A fault is the same beside sort keys. -/
theorem Amid.error {α : Type} {keep : α → α} {size : α → Nat} (fault : SemanticFault) :
    Amid keep size ([], .error fault) ([], .error fault) :=
  .of_kept fun a ha => by cases ha

section SortItems

variable {keep keep' : List SortItem → List SortItem} {item : SortItem} {w : SemanticFault}
  {alone amid : List SemanticFault × Understood (List SortItem)}

/-- A sort item that is repeated in any case. -/
theorem Amid.repeated (h : Amid keep List.length alone amid) (hw : IsRepeat w) :
    Amid keep List.length (w :: alone.1, alone.2) (w :: amid.1, amid.2) where
  outcome := h.outcome
  warnings := h.warnings.cons_cons w
  repeats := List.forall_mem_cons.mpr ⟨hw, h.repeats⟩
  removed items hitems := by
    have hcount := h.removed items hitems
    simp only [List.length_cons]
    omega

/-- A sort item that is new alone, and repeated beside the keys that are there. -/
theorem Amid.skip (h : Amid keep List.length alone amid) (hw : IsRepeat w)
    (hkeep : ∀ items, keep (item :: items) = keep items) :
    Amid keep List.length (alone.1, alone.2.map (item :: ·)) (w :: amid.1, amid.2) where
  outcome := by
    simp only [h.outcome]
    cases alone.2 with
    | error fault => rfl
    | ok items => exact congrArg Except.ok (hkeep items).symm
  warnings := h.warnings.cons w
  repeats := List.forall_mem_cons.mpr ⟨hw, h.repeats⟩
  removed _ hmap := by
    obtain ⟨items, hitems, rfl⟩ := Understood.exists_of_map hmap
    have hcount := h.removed items hitems
    simp only [List.length_cons, hkeep]
    omega

/-- A sort item that is new in any case. -/
theorem Amid.new (h : Amid keep' List.length alone amid)
    (hkeep : ∀ items, keep (item :: items) = item :: keep' items) :
    Amid keep List.length (alone.1, alone.2.map (item :: ·)) (amid.1, amid.2.map (item :: ·)) where
  outcome := by
    simp only [h.outcome]
    cases alone.2 with
    | error fault => rfl
    | ok items => exact congrArg Except.ok (hkeep items).symm
  warnings := h.warnings
  repeats := h.repeats
  removed _ hmap := by
    obtain ⟨items, hitems, rfl⟩ := Understood.exists_of_map hmap
    have hcount := h.removed items hitems
    simp only [List.length_cons, hkeep]
    omega

end SortItems

/-- **Sort items beside keys that are there** are those that they are alone, without those of a key
that is there. -/
theorem amid_sortItems : ∀ (vs : List Value) {seen present : List OrderKey}, seen ⊆ present →
    Amid (distinctSorts present) List.length (sortItems seen vs) (sortItems present vs)
  | [], _, _, _ => .of_kept fun items hitems => by
    obtain rfl := Except.ok.inj hitems
    rfl
  | v :: vs, seen, present, hsub => by
    rw [sortItems, sortItems]
    cases sortItem v with
    | error fault => exact .error fault
    | ok item =>
      simp only [List.contains_iff_mem]
      by_cases hseen : item.key ∈ seen
      · rw [if_pos hseen, if_pos (hsub hseen)]
        exact (amid_sortItems vs hsub).repeated ⟨_, rfl⟩
      · by_cases hpresent : item.key ∈ present
        · have hsub' : seen ++ [item.key] ⊆ present :=
            List.append_subset.mpr ⟨hsub, by simpa using hpresent⟩
          rw [if_neg hseen, if_pos hpresent]
          refine (amid_sortItems vs hsub').skip ⟨_, rfl⟩ fun items => ?_
          rw [distinctSorts, if_pos (List.contains_iff_mem.mpr hpresent)]
        · have hsub' : seen ++ [item.key] ⊆ present ++ [item.key] :=
            List.append_subset.mpr ⟨List.subset_append_of_subset_left _ hsub,
              List.subset_append_right _ _⟩
          rw [if_neg hseen, if_neg hpresent]
          refine (amid_sortItems vs hsub').new fun items => ?_
          rw [distinctSorts, if_neg (by simpa using hpresent)]

theorem amid_sorts (phrase : Phrase) :
    Amid (distinctSorts present) List.length (sorts [] phrase) (sorts present phrase) := by
  unfold sorts
  rcases phrase.relation with _ | ⟨family, predicate, range⟩ | ⟨direction, range⟩
  · exact .error _
  · cases family
    case equal =>
      cases predicate
      case values values => exact amid_sortItems values (List.nil_subset present)
      all_goals exact .error _
    all_goals exact .error _
  · exact .error _

/-! ## What an item adds -/

/-- What an item adds beside sort keys that are there. -/
def Contribution.beside (present : List OrderKey) : Contribution → Contribution
  | sorts items => sorts (distinctSorts present items)
  | element clause => element clause
  | filter clause => filter clause
  | nothing => nothing

/-- How many sort items an item adds. -/
def Contribution.sortCount : Contribution → Nat
  | sorts items => items.length
  | element _ | filter _ | nothing => 0

/-- A contribution that sorts nothing is the same beside sort keys. -/
theorem Contribution.beside_of_plainItem {item : Item} {subjects : List Subject} {c : Contribution}
    (h : plainItem lookup options clock item subjects = .ok c) : c.beside present = c := by
  have hfilter : ∀ {fields c}, filterItem options clock item fields = .ok c →
      c.beside present = c := by
    intro fields c h
    obtain ⟨groups, _, h⟩ := Understood.exists_of_bind h
    split at h
    all_goals
      obtain rfl := Except.ok.inj h
      rfl
  have hfield : ∀ {c}, fieldItem lookup options clock item subjects = .ok c →
      c.beside present = c := by
    intro c h
    unfold fieldItem at h
    split at h
    · exact hfilter h
    · split at h
      · cases h
      · obtain ⟨clause, _, h⟩ := Understood.exists_of_bind h
        obtain rfl := Except.ok.inj h
        rfl
  unfold plainItem at h
  split at h
  · split at h
    · exact hfield h
    · cases h
  · split at h
    · split at h
      · obtain ⟨clause, _, h⟩ := Understood.exists_of_bind h
        obtain rfl := Except.ok.inj h
        rfl
      · cases h
    · obtain ⟨clause, _, h⟩ := Understood.exists_of_bind h
      obtain rfl := Except.ok.inj h
      rfl

/-- The sort items of an item, as what it adds. -/
theorem Amid.sorts {alone amid : List SemanticFault × Understood (List SortItem)}
    (h : Amid (distinctSorts present) List.length alone amid) :
    Amid (Contribution.beside present) Contribution.sortCount
      (alone.1, alone.2.map .sorts) (amid.1, amid.2.map .sorts) where
  outcome := by
    simp only [h.outcome]
    cases alone.2 <;> rfl
  warnings := h.warnings
  repeats := h.repeats
  removed c hc := by
    obtain ⟨items, hitems, rfl⟩ := Understood.exists_of_map hc
    exact h.removed items hitems

/-- **What an item adds beside sort keys that are there.** -/
theorem amid_analyzeItem (item : Item) :
    Amid (Contribution.beside present) Contribution.sortCount
      (analyzeItem lookup options clock [] item)
      (analyzeItem lookup options clock present item) := by
  unfold analyzeItem
  split
  · refine .of_kept fun c hc => ?_
    obtain ⟨clause, _, rfl⟩ := Understood.exists_of_map hc
    rfl
  · split
    · exact .error _
    · split
      · unfold sortingItem
        split
        · split
          · exact .error _
          · exact (amid_sorts _).sorts
        · exact .error _
      · exact .of_kept fun c hc => Contribution.beside_of_plainItem hc

theorem Contribution.addTo_beside (m : Meaning) (c : Contribution) :
    (c.beside (m.sorts.map SortItem.key)).addTo m = m.join (c.addTo .empty) := by
  cases c <;> simp [beside, addTo, Meaning.join, Meaning.empty, distinctSorts]

theorem Contribution.length_sorts_addTo (m : Meaning) (c : Contribution) :
    (c.addTo m).sorts.length = m.sorts.length + c.sortCount := by
  cases c <;> simp [addTo, sortCount]

/-! ## Nodes -/

/-- The node of an item in a query that has no other. -/
def scope (lookup : Lookup) (options : CompilerOptions) (clock : Int) (node : Tree) : Progress :=
  addItem lookup options clock ⟨.empty, .empty⟩ node

/-- What becomes of a meaning and the findings in it when items with some scopes follow. -/
structure Beside (p : Progress) (scopes : List Progress) (q : Progress) : Prop where
  errors : q.findings.errors = p.findings.errors ++ scopes.flatMap fun s => s.findings.errors
  elements : q.meaning.elements = p.meaning.elements ++ scopes.flatMap fun s => s.meaning.elements
  filters : q.meaning.filters = p.meaning.filters ++ scopes.flatMap fun s => s.meaning.filters
  sorts : q.meaning.sorts = p.meaning.sorts ++
    distinctSorts (p.meaning.sorts.map SortItem.key) (scopes.flatMap fun s => s.meaning.sorts)
  warnings : ∃ ws, q.findings.warnings = p.findings.warnings ++ ws ∧
    (scopes.flatMap fun s => s.findings.warnings).Sublist ws ∧ (∀ w ∈ ws, IsRepeat w) ∧
    ((scopes.flatMap fun s => s.findings.errors) = [] →
      ws.length + q.meaning.sorts.length =
        (scopes.flatMap fun s => s.findings.warnings).length + p.meaning.sorts.length +
          (scopes.flatMap fun s => s.meaning.sorts).length)

theorem beside_nil (p : Progress) : Beside p [] p where
  errors := by simp
  elements := by simp
  filters := by simp
  sorts := by simp [distinctSorts]
  warnings := ⟨[], by simp⟩

/-- Items behind one another. -/
theorem Beside.trans {p q r : Progress} {scopes scopes' : List Progress} (h : Beside p scopes q)
    (h' : Beside q scopes' r) : Beside p (scopes ++ scopes') r where
  errors := by rw [h'.errors, h.errors, List.flatMap_append, List.append_assoc]
  elements := by rw [h'.elements, h.elements, List.flatMap_append, List.append_assoc]
  filters := by rw [h'.filters, h.filters, List.flatMap_append, List.append_assoc]
  sorts := by
    rw [h'.sorts, h.sorts, List.flatMap_append, distinctSorts_append, List.map_append,
      List.append_assoc]
  warnings := by
    obtain ⟨ws, hws, hsub, hrepeats, hcount⟩ := h.warnings
    obtain ⟨ws', hws', hsub', hrepeats', hcount'⟩ := h'.warnings
    refine ⟨ws ++ ws', by rw [hws', hws, List.append_assoc], ?_, List.forall_mem_append.mpr
      ⟨hrepeats, hrepeats'⟩, fun hnone => ?_⟩
    · rw [List.flatMap_append]
      exact hsub.append hsub'
    · rw [List.flatMap_append, List.append_eq_nil_iff] at hnone
      have hleft := hcount hnone.1
      have hright := hcount' hnone.2
      simp only [List.flatMap_append, List.length_append]
      omega

/-- Go on with what was understood of an item. -/
def Progress.add (p : Progress) (r : List SemanticFault × Understood Contribution) : Progress :=
  match r.2 with
  | .error fault => ⟨p.meaning, p.findings.warnings ++ r.1, p.findings.errors ++ [fault]⟩
  | .ok c => ⟨c.addTo p.meaning, p.findings.warnings ++ r.1, p.findings.errors⟩

theorem addItem_of_readItem {node : Tree} {item : Item} (h : Query.readItem node = .ok item)
    (p : Progress) : addItem lookup options clock p node =
      p.add (analyzeItem lookup options clock (p.meaning.sorts.map SortItem.key) item) := by
  simp only [addItem, h, Findings.foldl_warn, Progress.add]
  rfl

theorem beside_add {p : Progress} {alone amid : List SemanticFault × Understood Contribution}
    (h : Amid (Contribution.beside (p.meaning.sorts.map SortItem.key)) Contribution.sortCount alone
      amid) : Beside p [Progress.add ⟨.empty, .empty⟩ alone] (p.add amid) := by
  obtain ⟨houtcome, hwarnings, hrepeats, hremoved⟩ := h
  obtain ⟨ws, outcome⟩ := alone
  obtain ⟨ws', outcome'⟩ := amid
  obtain rfl : outcome' = _ := houtcome
  cases outcome with
  | error fault =>
    refine ⟨rfl, ?_, ?_, ?_, ws', rfl, ?_, hrepeats, ?_⟩
    · simp [Progress.add, Except.map, Meaning.empty]
    · simp [Progress.add, Except.map, Meaning.empty]
    · simp [Progress.add, Except.map, Meaning.empty, distinctSorts]
    · simpa [Progress.add, Findings.empty] using hwarnings
    · simp [Progress.add, Findings.empty]
  | ok c =>
    have hjoin := Contribution.addTo_beside p.meaning c
    have hcount : ws'.length + (c.beside (p.meaning.sorts.map SortItem.key)).sortCount =
        ws.length + c.sortCount := hremoved c rfl
    refine ⟨?_, ?_, ?_, ?_, ws', rfl, ?_, hrepeats, fun _ => ?_⟩
    · simp [Progress.add, Except.map, Findings.empty]
    · simp [Progress.add, Except.map, hjoin, Meaning.join]
    · simp [Progress.add, Except.map, hjoin, Meaning.join]
    · simp [Progress.add, Except.map, hjoin, Meaning.join]
    · simpa [Progress.add, Findings.empty] using hwarnings
    · simp only [Progress.add, Except.map, Contribution.length_sorts_addTo, List.flatMap_cons,
        List.flatMap_nil, List.append_nil, Findings.empty, List.nil_append, Meaning.empty,
        List.length_nil]
      omega

/-- **An item adds to a meaning what it means alone.** -/
theorem addItem_beside (p : Progress) (node : Tree) :
    Beside p [scope lookup options clock node] (addItem lookup options clock p node) := by
  cases hread : Query.readItem node with
  | error fault =>
    have hscope : scope lookup options clock node = ⟨.empty, Findings.empty.fail fault⟩ := by
      simp only [scope, addItem, hread]
    have hadd : addItem lookup options clock p node = ⟨p.meaning, p.findings.fail fault⟩ := by
      simp only [addItem, hread]
    rw [hscope, hadd]
    exact ⟨rfl, by simp [Meaning.empty], by simp [Meaning.empty],
      by simp [Meaning.empty, distinctSorts], ⟨[], by simp [Findings.fail, Findings.empty]⟩⟩
  | ok item =>
    rw [scope, addItem_of_readItem hread, addItem_of_readItem hread]
    exact beside_add (amid_analyzeItem item)

/-- **The items of a query add what they mean alone**, one behind the other. -/
theorem foldl_addItem_beside (nodes : List Tree) (p : Progress) :
    Beside p (nodes.map (scope lookup options clock))
      (nodes.foldl (addItem lookup options clock) p) := by
  induction nodes generalizing p with
  | nil => exact beside_nil p
  | cons node nodes ih => exact (addItem_beside p node).trans (ih _)

/-- A scope has at most one error, and with one it means nothing. -/
theorem scope_errors (node : Tree) : (scope lookup options clock node).findings.errors.length ≤ 1 ∧
    ((scope lookup options clock node).findings.errors ≠ [] →
      (scope lookup options clock node).meaning = .empty) := by
  cases hread : Query.readItem node with
  | error fault => simp [scope, addItem, hread, Findings.fail, Findings.empty]
  | ok item =>
    rw [scope, addItem_of_readItem hread, Progress.add]
    split
    · simp [Findings.empty]
    · simp [Findings.empty]

/-- **A failing item leaves the meaning as it was.** -/
theorem meaning_of_errors {node : Tree}
    (h : (scope lookup options clock node).findings.errors ≠ []) (p : Progress) :
      (addItem lookup options clock p node).meaning = p.meaning := by
  obtain ⟨_, helements, hfilters, hsorts, _⟩ := @addItem_beside lookup options clock p node
  simp only [List.flatMap_cons, List.flatMap_nil, (scope_errors node).2 h, Meaning.empty,
    distinctSorts, List.append_nil] at helements hfilters hsorts
  generalize (addItem lookup options clock p node).meaning = m at helements hfilters hsorts
  cases m
  simp_all

end Analysis

/-! ## Queries of one item -/

/-- The parse tree of a query with the node of its only item. -/
def onlyItem (node : Tree) : Tree := Query.nodeOf 1 "SEQUENCE" [node]

/-- What analysis reports of a query with a single item. -/
def analyzeAlone (lookup : Lookup) (options : CompilerOptions) (clock : Int) (node : Tree) :
    Report Meaning SemanticFault :=
  analyze lookup options clock (onlyItem node)

theorem itemNodes_onlyItem {node : Tree} (h : node.symbol = .nonterminal "SEQUENCE_ITEM") :
    Query.itemNodes (onlyItem node) = .ok [node] := by
  have hkey := Query.isKey_of_symbol h
  have hlist : Query.leftList "SEQUENCE" (onlyItem node) = .ok [node] := by
    simp [Query.leftList, onlyItem, Query.nodeOf, Query.leftListOnto]
  rw [Query.itemNodes, hlist, Understood.ok_bind, List.mapM_cons, Query.expect, if_pos hkey]
  rfl

theorem analyze_of_itemNodes (lookup : Lookup) (options : CompilerOptions)
    (clock : Int) {root : Tree} {nodes : List Tree} (h : Query.itemNodes root = .ok nodes) :
    ∃ q, Analysis.Beside ⟨.empty, .empty⟩ (nodes.map (Analysis.scope lookup options clock)) q ∧
      analyze lookup options clock root = q.findings.finish (some q.meaning) := by
  refine ⟨_, Analysis.foldl_addItem_beside nodes _, ?_⟩
  rw [analyze, h]

theorem analyzeAlone_eq (lookup : Lookup) (options : CompilerOptions) (clock : Int) {node : Tree}
    (h : node.symbol = .nonterminal "SEQUENCE_ITEM") : analyzeAlone lookup options clock node =
      (Analysis.scope lookup options clock node).findings.finish
        (some (Analysis.scope lookup options clock node).meaning) := by
  rw [analyzeAlone, analyze, itemNodes_onlyItem h]
  rfl

theorem errors_analyzeAlone (lookup : Lookup) (options : CompilerOptions)
    (clock : Int) {node : Tree} (h : node.symbol = .nonterminal "SEQUENCE_ITEM") :
    (analyzeAlone lookup options clock node).errors =
      (Analysis.scope lookup options clock node).findings.errors := by
  rw [analyzeAlone_eq lookup options clock h]
  rfl

theorem isDerivation_onlyItem {node : Tree} (h : node.IsDerivation Query.productions)
    (hsymbol : node.symbol = .nonterminal "SEQUENCE_ITEM") :
    (onlyItem node).IsDerivation Query.productions :=
  ⟨⟨⟨"SEQUENCE", .nonterminal "SEQUENCE_ITEM", []⟩, by decide, rfl,
      by simp [hsymbol, Grammar.Production.body]⟩, h, trivial⟩

/-- What is understood of a query, in terms of the meanings of its items and of the warnings in
each: clauses stand behind one another, sort items too where their key is new, and there is one more
warning for each that is not. -/
structure JoinedFrom (scopes : List (Report Meaning SemanticFault)) (ms : List Meaning)
    (r : Report Meaning SemanticFault) : Prop where
  results : scopes.map Report.result = ms.map some
  result : r.result = some ⟨distinctSorts [] (ms.flatMap Meaning.sorts),
    ms.flatMap Meaning.elements, ms.flatMap Meaning.filters⟩
  warnings : (scopes.flatMap Report.warnings).Sublist r.warnings
  repeats : ∀ w ∈ r.warnings, Analysis.IsRepeat w
  removed : r.warnings.length + (distinctSorts [] (ms.flatMap Meaning.sorts)).length =
    (scopes.flatMap Report.warnings).length + (ms.flatMap Meaning.sorts).length

/-- Without an error the reports on the items join to the report on the query. -/
theorem joinedFrom_of_beside {lookup : Lookup} {options : CompilerOptions}
    {clock : Int} {nodes : List Tree}
    (hitems : ∀ n ∈ nodes, n.symbol = .nonterminal "SEQUENCE_ITEM") {q : Analysis.Progress}
    (h : Analysis.Beside ⟨.empty, .empty⟩ (nodes.map (Analysis.scope lookup options clock)) q)
    (hnone : q.findings.errors = []) :
    JoinedFrom (nodes.map (analyzeAlone lookup options clock))
      (nodes.map fun n => (Analysis.scope lookup options clock n).meaning)
      (q.findings.finish (some q.meaning)) := by
  have herrors : ((nodes.map (Analysis.scope lookup options clock)).flatMap
      fun s => s.findings.errors) = [] := by
    rw [← hnone, h.errors]
    rfl
  have hscope : ∀ n ∈ nodes, (Analysis.scope lookup options clock n).findings.errors = [] := by
    simpa [List.flatMap_map] using herrors
  have hwarnings : (nodes.map (analyzeAlone lookup options clock)).flatMap Report.warnings =
      (nodes.map (Analysis.scope lookup options clock)).flatMap fun s => s.findings.warnings := by
    rw [List.flatMap_map, List.flatMap_map]
    exact List.flatMap_congr fun n hn => by
      rw [analyzeAlone_eq lookup options clock (hitems n hn)]; rfl
  have hsorts : q.meaning.sorts = distinctSorts []
      ((nodes.map fun n => (Analysis.scope lookup options clock n).meaning).flatMap
        Meaning.sorts) := by
    rw [h.sorts, List.flatMap_map, List.flatMap_map]
    rfl
  obtain ⟨ws, hws, hsub, hrepeats, hcount⟩ := h.warnings
  have hreported : (q.findings.finish (some q.meaning)).warnings = ws := hws
  refine ⟨?_, ?_, ?_, ?_, ?_⟩
  · rw [List.map_map, List.map_map]
    refine List.map_congr_left fun n hn => ?_
    simp only [Function.comp_apply, analyzeAlone_eq lookup options clock (hitems n hn),
      Findings.finish, hscope n hn]
    rfl
  · simp only [Findings.finish, hnone, List.isEmpty_nil, if_true, Option.some.injEq]
    have helements := h.elements
    have hfilters := h.filters
    simp only [List.flatMap_map] at helements hfilters hsorts ⊢
    rw [← hsorts]
    cases hq : q.meaning
    simp_all [Meaning.empty]
  · rw [hwarnings, hreported]
    exact hsub
  · rw [hreported]
    exact hrepeats
  · rw [hreported, hwarnings, ← hsorts, hcount herrors]
    simp [Meaning.empty, List.flatMap_map]

/-- **Items are scopes of their own.** In every derivation of a query, for every lookup and all
options: the errors are those of its items, each analysed as the only one, in their order, and each
has at most one; an item with an error leaves the meaning as it was; and without an error the
clauses are those of the items, and so are the sort items, but for later ones of a key that is
there, each of which gives one warning. -/
theorem analyze_scopes (lookup : Lookup) (options : CompilerOptions) (clock : Int) {root : Tree}
    (hroot : root.IsDerivation Query.productions)
    (hsymbol : root.symbol = .nonterminal "SEQUENCE") :
    ∃ nodes, Query.itemNodes root = .ok nodes ∧
      (∀ n ∈ nodes, (onlyItem n).IsDerivation Query.productions ∧
        (analyzeAlone lookup options clock n).errors.length ≤ 1 ∧
        ((analyzeAlone lookup options clock n).errors ≠ [] →
          ∀ p, (Analysis.addItem lookup options clock p n).meaning = p.meaning)) ∧
      (analyze lookup options clock root).errors =
        nodes.flatMap (fun n => (analyzeAlone lookup options clock n).errors) ∧
      ((analyze lookup options clock root).errors = [] →
        ∃ ms, JoinedFrom (nodes.map (analyzeAlone lookup options clock)) ms
          (analyze lookup options clock root)) := by
  obtain ⟨nodes, hnodes, hitems⟩ := Query.exists_itemNodes hroot hsymbol
  obtain ⟨q, hbeside, hanalyzed⟩ := analyze_of_itemNodes lookup options clock hnodes
  have herrors := fun n hn => errors_analyzeAlone lookup options clock (hitems n hn).2
  rw [hanalyzed]
  refine ⟨nodes, hnodes,
    fun n hn => ⟨isDerivation_onlyItem (hitems n hn).1 (hitems n hn).2, ?_, ?_⟩,
    ?_, fun hnone => ⟨_, joinedFrom_of_beside (fun n hn => (hitems n hn).2) hbeside hnone⟩⟩
  · rw [herrors n hn]
    exact (Analysis.scope_errors n).1
  · rw [herrors n hn]
    exact Analysis.meaning_of_errors
  · rw [List.flatMap_congr herrors]
    exact hbeside.errors.trans (by rw [List.flatMap_map]; rfl)

/-- The node of an item that is a single word. -/
def wordItem (t : Token) : Tree :=
  Query.nodeOf 4 "SEQUENCE_ITEM" [Query.nodeOf 8 "ELEMENT" [Query.nodeOf 13 "ELEMENT_ITEM"
    [Query.nodeOf 16 "SFP" [Query.nodeOf 18 "SUBJECT" [Query.nodeOf 28 "STRING" [.leaf t]]]]]]

/-- The parse tree of `sun moon`. -/
def sunMoon : Tree :=
  Query.nodeOf 2 "SEQUENCE" [onlyItem (wordItem ⟨.string "sun" .word, .between 0 3⟩),
    wordItem ⟨.string "moon" .word, .between 4 8⟩]

/-- Where no names are known, both items of `sun moon` have an error, and so has each alone. -/
theorem analyze_scopes_sunMoon : (analyze .empty .default 2021 sunMoon).errors.length = 2 ∧
    ∃ nodes, Query.itemNodes sunMoon = .ok nodes ∧
      (nodes.flatMap fun n => (analyzeAlone .empty .default 2021 n).errors).length = 2 := by
  have herrors : (analyze .empty .default 2021 sunMoon).errors.length = 2 := by decide
  obtain ⟨nodes, hnodes, _, hflat, _⟩ :=
    analyze_scopes .empty .default 2021 (by decide : sunMoon.IsDerivation Query.productions) rfl
  exact ⟨herrors, nodes, hnodes, hflat ▸ herrors⟩

end PixQuery
