import PixQuery.Proofs.Meaning.Clauses
import PixQuery.Proofs.Meaning.Scopes
import PixQuery.Proofs.Query.Subjects

/-!
# Clauses with members

What a name means is never nothing, so the clause of an item has members, with one exception: a
field of metadata takes a collection of names, and the collection may be empty. An item whose
phrases are all such fields with empty collections has a clause without members. Fields of metadata
are words before a colon, so a query that has no such word there is understood with members in all
of its clauses.

Results:
* `Analysis.union_eq_nil_iff`: when the clause of an item has no members.
* `ne_nil_iff_of_analyze`: when all clauses of a query have members.
* `ne_nil_of_analyze`: they have if no name of a field of metadata stands before a colon.
-/

namespace PixQuery

open Query (Path Phrase Relation Item AvoidsIn)

variable {lookup : Lookup} {options : CompilerOptions} {clock : Int}

/-! ## Unions -/

theorem ne_nil_addEntities {found : List Entity} {union : List ElementValue}
    (h : union ≠ [] ∨ found ≠ []) : addEntities union found ≠ [] := by
  induction found generalizing union with
  | nil => exact h.resolve_right (fun hne => hne rfl)
  | cons e found ih =>
    refine ih (.inl ?_)
    show (if isMember union e then union else union ++ [.entity e]) ≠ []
    split
    · rename_i hmember
      rintro rfl
      cases hmember
    · exact List.append_ne_nil_of_right_ne_nil _ (List.cons_ne_nil _ [])

/-- A union of groups that has a group with members has members. -/
theorem ne_nil_unionOf {groups : List (List Entity)} (hne : groups ≠ [])
    (h : ∀ found ∈ groups, found ≠ []) : unionOf groups ≠ [] := by
  have hfold : ∀ (groups : List (List Entity)) (union : List ElementValue), union ≠ [] →
      groups.foldl addEntities union ≠ [] := by
    intro groups
    induction groups with
    | nil => exact fun union hunion => hunion
    | cons found groups ih => exact fun union hunion => ih _ (ne_nil_addEntities (.inl hunion))
  obtain ⟨found, groups, rfl⟩ := List.exists_cons_of_ne_nil hne
  exact hfold groups _ (ne_nil_addEntities (.inr (h found List.mem_cons_self)))

theorem ne_nil_of_resolve {kind : Kind} {path : Path} {found : List Entity}
    (h : resolve lookup kind path = .ok found) : found ≠ [] := by
  unfold resolve at h
  simp only at h
  split at h
  · cases h
  · split at h
    · cases h
    · rename_i hne
      split at h
      · cases h
      · obtain rfl := Except.ok.inj h
        simpa using hne

/-- The groups of some phrases, each of which means something. -/
theorem ne_nil_unionOf_mapM {α : Type} {f : α → Understood (List Entity)} {as : List α}
    {groups : List (List Entity)} (h : as.mapM f = .ok groups) (hne : as ≠ [])
    (hf : ∀ a ∈ as, ∀ found, f a = .ok found → found ≠ []) : unionOf groups ≠ [] := by
  obtain ⟨a, rest, rfl⟩ := List.exists_cons_of_ne_nil hne
  refine ne_nil_unionOf (Understood.ne_nil_of_mapM h) fun found hfound => ?_
  obtain ⟨b, hb, hbf⟩ := Understood.exists_of_mem_mapM h found hfound
  exact hf b hb found hbf

theorem ne_nil_of_resolveAll {kind : Kind} {paths : List Path} {union : List ElementValue}
    (h : resolveAll lookup kind paths = .ok union) (hne : paths ≠ []) : union ≠ [] := by
  obtain ⟨groups, hgroups, rfl⟩ := Understood.exists_of_map h
  exact ne_nil_unionOf_mapM hgroups hne fun _ _ _ => ne_nil_of_resolve

theorem Sequence.ne_nil_of_members {bounds : RangeBounds} {phrase : Phrase} {found : List Entity}
    (h : members lookup bounds phrase = .ok found) : found ≠ [] := by
  obtain ⟨found', _, h⟩ := Understood.exists_of_bind h
  split at h
  · cases h
  · rename_i hne
    obtain rfl := Except.ok.inj h
    simpa using hne

/-! ## Items -/

/-- The word is a name of a field of metadata, behind the source mark or not. -/
def NamesKind (word : String) : Prop := ∃ source, (AliasEntry.find? Kind.names word source).isSome

namespace Analysis

/-- The item consists of fields of metadata with empty collections, as `tag:{}` does. -/
def AsksForNone (item : Item) : Prop :=
  item.element.mark = none ∧ ∀ p ∈ item.element.phrases,
    (∃ kind, classify item.source p = .ok (.elementField kind)) ∧
      ∃ range, p.relation = some (.binary .equal (.collection []) range)

theorem ne_nil_of_markedItem {bounds : RangeBounds} {item : Item} {mark : Query.Mark}
    {c : ElementClause} (hne : item.element.phrases ≠ [])
    (h : markedItem lookup bounds item mark = .ok c) : c.union ≠ [] := by
  unfold markedItem at h
  split at h
  · cases h
  · obtain ⟨groups, hgroups, h⟩ := Understood.exists_of_bind h
    obtain rfl := Except.ok.inj h
    refine ne_nil_unionOf_mapM hgroups hne fun phrase _ found hphrase => ?_
    unfold markedPhrase at hphrase
    split at hphrase
    · cases hphrase
    · split at hphrase
      · cases hphrase
      · split at hphrase
        · exact Sequence.ne_nil_of_members hphrase
        · exact ne_nil_of_resolve hphrase

theorem ne_nil_of_nameItem {bounds : RangeBounds} {item : Item} {subjects : List Subject}
    {c : ElementClause} (hne : item.element.phrases ≠ [])
    (hsubjects : subjects ≠ [])
    (h : nameItem lookup bounds item subjects = .ok c) : c.union ≠ [] := by
  have hpaths : item.element.phrases.map Phrase.subject ≠ [] := mt List.map_eq_nil_iff.mp hne
  unfold nameItem at h
  simp only at h
  split at h
  · obtain ⟨groups, hgroups, h⟩ := Understood.exists_of_bind h
    obtain rfl := Except.ok.inj h
    have hzip : subjects.zip item.element.phrases ≠ [] := by
      rw [Ne, List.zip_eq_nil_iff]
      exact fun hnil => hnil.elim hsubjects hne
    refine ne_nil_unionOf_mapM hgroups hzip fun s _ found hs => ?_
    unfold relatedPhrase at hs
    split at hs
    · exact Sequence.ne_nil_of_members hs
    · exact ne_nil_of_resolve hs
  · split at h
    · obtain ⟨union, hunion, h⟩ := Understood.exists_of_bind h
      obtain rfl := Except.ok.inj h
      exact ne_nil_of_resolveAll hunion hpaths
    · obtain ⟨⟨kind, union⟩, hunion, h⟩ := Understood.exists_of_bind h
      obtain rfl := Except.ok.inj h
      exact ne_nil_of_resolveAll (resolveAll_of_resolveBare hunion) hpaths

/-- A field of metadata has no names only behind an empty collection. -/
theorem elementFieldNames_eq_nil_iff {kind : Kind} {phrase : Phrase} {names : List Path}
    (hcomplete : ∀ r, phrase.relation = some r → r.IsComplete)
    (h : elementFieldNames kind phrase = .ok names) :
    names = [] ↔ ∃ range, phrase.relation = some (.binary .equal (.collection []) range) := by
  unfold elementFieldNames at h
  split at h
  · rename_i family predicate range hrelation
    have hpredicate : predicate.IsComplete := hcomplete _ hrelation
    split at h
    · cases h
    · rename_i hequal
      obtain rfl : family = .equal := by simpa using hequal
      split at h
      · rename_i values
        obtain ⟨v, vs, rfl⟩ := List.exists_cons_of_ne_nil hpredicate
        simp [hrelation, Understood.ne_nil_of_mapM h]
      · obtain rfl := Except.ok.inj h
        simp [hrelation]
      · cases h
  · cases h
  · cases h

theorem resolveAll_eq_nil_iff {kind : Kind} {paths : List Path} {union : List ElementValue}
    (h : resolveAll lookup kind paths = .ok union) : union = [] ↔ paths = [] := by
  refine ⟨fun hnil => not_imp_comm.mp (ne_nil_of_resolveAll h) (not_not_intro hnil), ?_⟩
  rintro rfl
  exact (Except.ok.inj h).symm

theorem elementFieldItem_union_eq_nil_iff {item : Item} {kind : Kind} {kinds : List Kind}
    {c : ElementClause}
    (hcomplete : ∀ p ∈ item.element.phrases, ∀ r, p.relation = some r → r.IsComplete)
    (h : elementFieldItem lookup item kind kinds = .ok c) :
    c.union = [] ↔ ∀ p ∈ item.element.phrases,
      ∃ range, p.relation = some (.binary .equal (.collection []) range) := by
  unfold elementFieldItem at h
  split at h
  · cases h
  · obtain ⟨paths, hpaths, h⟩ := Understood.exists_of_bind h
    obtain ⟨union, hunion, h⟩ := Understood.exists_of_bind h
    obtain rfl := Except.ok.inj h
    refine (resolveAll_eq_nil_iff hunion).trans (List.flatten_eq_nil_iff.trans ⟨?_, ?_⟩)
    · intro hnil p hp
      obtain ⟨names, hnames, hp'⟩ := Understood.exists_mem_of_mapM hpaths p hp
      exact (elementFieldNames_eq_nil_iff (hcomplete p hp) hp').mp (hnil names hnames)
    · intro hnone names hnames
      obtain ⟨p, hp, hp'⟩ := Understood.exists_of_mem_mapM hpaths names hnames
      exact (elementFieldNames_eq_nil_iff (hcomplete p hp) hp').mpr (hnone p hp)

/-- An item that asks for none has a field of metadata among its subjects. -/
theorem AsksForNone.exists_mem {item : Item} {subjects : List Subject} (hitem : AsksForNone item)
    (hne : item.element.phrases ≠ [])
    (hsubjects : item.element.phrases.mapM (classify item.source) = .ok subjects) :
    ∃ kind, .elementField kind ∈ subjects := by
  obtain ⟨p, hp⟩ := List.exists_mem_of_ne_nil _ hne
  obtain ⟨⟨kind, hkind⟩, _⟩ := hitem.2 p hp
  obtain ⟨s, hs, hsp⟩ := Understood.exists_mem_of_mapM hsubjects p hp
  obtain rfl := Except.ok.inj (hkind.symm.trans hsp)
  exact ⟨kind, hs⟩

/-- When there are as many kinds as phrases, all phrases are about fields of metadata. -/
theorem forall_elementField {item : Item} {subjects : List Subject}
    (hsubjects : item.element.phrases.mapM (classify item.source) = .ok subjects)
    (hlength : subjects.length ≤ (subjects.filterMap Subject.elementKind?).length) :
    ∀ p ∈ item.element.phrases, ∃ kind, classify item.source p = .ok (.elementField kind) := by
  intro p hp
  obtain ⟨s, hs, hsp⟩ := Understood.exists_mem_of_mapM hsubjects p hp
  have hall := List.filterMap_length_eq_length.mp
    (le_antisymm (List.length_filterMap_le _ _) hlength) s hs
  cases s with
  | elementField kind => exact ⟨kind, hsp⟩
  | sort => cases hall
  | field _ => cases hall
  | text _ _ => cases hall
  | name => cases hall
  | sequence => cases hall

theorem fieldItem_union_eq_nil_iff {item : Item} (hitem : item.IsComplete) {subjects : List Subject}
    (hmark : item.element.mark = none)
    (hsubjects : item.element.phrases.mapM (classify item.source) = .ok subjects)
    {contribution : Contribution}
    (h : fieldItem lookup options clock item subjects = .ok contribution) :
    (∃ c, contribution = .element c ∧ c.union = []) ↔ AsksForNone item := by
  unfold fieldItem at h
  split at h
  · rename_i hkinds
    refine iff_of_false ?_ fun hnone => ?_
    · rintro ⟨c, rfl, _⟩
      obtain ⟨groups, _, h⟩ := Understood.exists_of_bind h
      split at h <;> cases h
    · obtain ⟨kind, hkind⟩ := hnone.exists_mem hitem.1 hsubjects
      cases List.filterMap_eq_nil_iff.mp hkinds _ hkind
  · rename_i kind kinds hkinds
    split at h
    · cases h
    · rename_i hlength
      obtain ⟨clause, hclause, h⟩ := Understood.exists_of_bind h
      obtain rfl := Except.ok.inj h
      have hfields := forall_elementField hsubjects (by rw [hkinds]; exact not_lt.mp hlength)
      have hnil := elementFieldItem_union_eq_nil_iff hitem.2 hclause
      constructor
      · rintro ⟨c, hc, hunion⟩
        obtain rfl := Contribution.element.inj hc
        exact ⟨hmark, fun p hp => ⟨hfields p hp, hnil.mp hunion p hp⟩⟩
      · exact fun hnone => ⟨clause, rfl, hnil.mpr fun p hp => (hnone.2 p hp).2⟩

theorem plainItem_union_eq_nil_iff {item : Item} (hitem : item.IsComplete) {subjects : List Subject}
    (hmark : item.element.mark = none)
    (hsubjects : item.element.phrases.mapM (classify item.source) = .ok subjects)
    {contribution : Contribution}
    (h : plainItem lookup options clock item subjects = .ok contribution) :
    (∃ c, contribution = .element c ∧ c.union = []) ↔ AsksForNone item := by
  unfold plainItem at h
  split at h
  · split at h
    · exact fieldItem_union_eq_nil_iff hitem hmark hsubjects h
    · cases h
  · rename_i hfield
    -- without a field, the item is of free text or of names, and has members
    have hmembers : ∃ c, contribution = .element c ∧ c.union ≠ [] := by
      split at h
      · rename_i hany
        split at h
        · obtain ⟨clause, hclause, h⟩ := Understood.exists_of_bind h
          obtain rfl := Except.ok.inj h
          refine ⟨clause, rfl, ?_⟩
          have hholds := @holds_of_textItem (fun _ _ => True) item subjects clause hany hclause
          unfold textItem at hclause
          split at hclause
          · cases hclause
          · obtain rfl := Except.ok.inj hclause
            exact hholds.1
        · cases h
      · obtain ⟨clause, hclause, h⟩ := Understood.exists_of_bind h
        obtain rfl := Except.ok.inj h
        refine ⟨clause, rfl, ne_nil_of_nameItem hitem.1 ?_ hclause⟩
        obtain ⟨phrase, rest, hcons⟩ := List.exists_cons_of_ne_nil hitem.1
        rw [hcons] at hsubjects
        exact Understood.ne_nil_of_mapM hsubjects
    obtain ⟨c, rfl, hne⟩ := hmembers
    refine iff_of_false ?_ fun hnone => hfield ?_
    · rintro ⟨c', hc, hnil⟩
      obtain rfl := Contribution.element.inj hc
      exact hne hnil
    · obtain ⟨kind, hkind⟩ := hnone.exists_mem hitem.1 hsubjects
      exact List.any_eq_true.mpr ⟨_, hkind, rfl⟩

/-- **When the clause of an item has no members**: the item consists of fields of metadata with
empty collections. -/
theorem union_eq_nil_iff {present : List OrderKey} {item : Item} (hitem : item.IsComplete)
    {contribution : Contribution}
    (h : (analyzeItem lookup options clock present item).2 = .ok contribution) :
    (∃ c, contribution = .element c ∧ c.union = []) ↔ AsksForNone item := by
  unfold analyzeItem at h
  split at h
  · rename_i mark hmark
    obtain ⟨clause, hclause, rfl⟩ := Understood.exists_of_map h
    refine iff_of_false ?_ fun hnone => ?_
    · rintro ⟨c, hc, hnil⟩
      obtain rfl := Contribution.element.inj hc
      exact ne_nil_of_markedItem hitem.1 hclause hnil
    · cases hmark.symm.trans hnone.1
  · rename_i hmark
    split at h
    · cases h
    · rename_i subjects hsubjects
      split at h
      · rename_i hsort
        refine iff_of_false ?_ fun hnone => ?_
        · rintro ⟨c, rfl, _⟩
          unfold sortingItem at h
          split at h
          · split at h
            · cases h
            · obtain ⟨items, _, h⟩ := Understood.exists_of_map h
              cases h
          · cases h
        · obtain ⟨p, hp, hclassify⟩ := Understood.exists_of_mem_mapM hsubjects .sort
            (List.contains_iff_mem.mp hsort)
          obtain ⟨⟨kind, hkind⟩, _⟩ := hnone.2 p hp
          cases hkind.symm.trans hclassify
      · exact plainItem_union_eq_nil_iff hitem hmark hsubjects h

/-! ## Names of fields -/

/-- A phrase about a field of metadata begins with a name of this field. -/
theorem of_classify_elementField {source : Bool} {phrase : Phrase} {k : Kind}
    (h : classify source phrase = .ok (.elementField k)) :
    phrase.subject.last.kind = .word ∧ NamesKind phrase.subject.last.value := by
  have hword : ∀ word, subjectWord? phrase = some word →
      phrase.subject.last.kind = .word ∧ phrase.subject.last.value = word := by
    intro word hword
    obtain ⟨part, hpart, hword⟩ := Option.bind_eq_some_iff.mp hword
    have hlast : phrase.subject.last = part := by
      unfold Path.single? at hpart
      split at hpart
      · rename_i hothers
        rw [← Option.some.inj hpart, Path.last, hothers]
        rfl
      · cases hpart
    split at hword
    · exact hlast ▸ ⟨by assumption, Option.some.inj hword⟩
    · cases hword
  have hname : classifyName phrase source ≠ .ok (.elementField k) := by
    intro hname
    unfold classifyName at hname
    split at hname
    · split at hname <;> cases hname
    · split at hname
      · split at hname <;> cases hname
      · cases hname
  unfold classify at h
  simp only at h
  split at h
  · rename_i word hsubject
    obtain ⟨hkind, hvalue⟩ := hword word hsubject
    obtain ⟨said, hsaid, h⟩ := Understood.exists_of_bind h
    split at h
    · obtain rfl := Except.ok.inj h
      refine ⟨hkind, source, ?_⟩
      unfold classifyWord at hsaid
      split at hsaid
      · cases hsaid
      · simp only at hsaid
        split at hsaid
        · rename_i kind hfound
          rw [hvalue]
          split at hfound
          · rw [hfound]
            rfl
          · cases hfound
        · cases hsaid
        · split at hsaid <;> cases hsaid
    · exact absurd h hname
  · exact absurd h hname

/-- An item that asks under no name of a field of metadata does not ask for none. -/
theorem not_asksForNone {item : Item} (hne : item.element.phrases ≠ [])
    (hphrases : ∀ p ∈ item.element.phrases, p.Avoids NamesKind) : ¬AsksForNone item := by
  intro hnone
  obtain ⟨p, hp⟩ := List.exists_mem_of_ne_nil _ hne
  obtain ⟨⟨kind, hclassify⟩, range, hrelation⟩ := hnone.2 p hp
  obtain ⟨hkind, hnames⟩ := of_classify_elementField hclassify
  exact hphrases p hp _ range hrelation hkind hnames

/-! ## Queries -/

/-- An item that is understood, alone in its query. -/
theorem exists_of_scope {node : Tree} (h : (scope lookup options clock node).findings.errors = []) :
    ∃ item contribution, Query.readItem node = .ok item ∧
      (analyzeItem lookup options clock [] item).2 = .ok contribution ∧
      (scope lookup options clock node).meaning = contribution.addTo .empty := by
  cases hread : Query.readItem node with
  | error fault => simp [scope, addItem, hread, Findings.fail] at h
  | ok item =>
    rw [scope, addItem_of_readItem hread] at h ⊢
    cases hanalyzed : (analyzeItem lookup options clock [] item).2 with
    | error fault => simp [Progress.add, Meaning.empty, hanalyzed] at h
    | ok contribution =>
      refine ⟨item, contribution, rfl, hanalyzed, ?_⟩
      simp [Progress.add, Meaning.empty, hanalyzed]

/-- The clause of an item in its own scope. -/
theorem ne_nil_iff_of_scope {node : Tree} {item : Item} (hread : Query.readItem node = .ok item)
    (h : (scope lookup options clock node).findings.errors = []) :
    (∀ c ∈ (scope lookup options clock node).meaning.elements, c.union ≠ []) ↔
      ¬AsksForNone item := by
  obtain ⟨item', contribution, hread', hanalyzed, hmeaning⟩ := exists_of_scope h
  obtain rfl := Except.ok.inj (hread.symm.trans hread')
  rw [← union_eq_nil_iff (Query.isComplete_of_readItem hread) hanalyzed, hmeaning]
  cases contribution <;> simp [Contribution.addTo, Meaning.empty]

end Analysis

/-- **When all clauses of a query have members**: none of its items asks for none. -/
theorem ne_nil_iff_of_analyze {root : Tree} {nodes : List Tree}
    (hnodes : Query.itemNodes root = .ok nodes) {m : Meaning}
    (h : (analyze lookup options clock root).result = some m) : (∀ c ∈ m.elements, c.union ≠ []) ↔
      ∀ node ∈ nodes, ∀ item, Query.readItem node = .ok item → ¬Analysis.AsksForNone item := by
  obtain ⟨q, hbeside, hanalyzed⟩ := analyze_of_itemNodes lookup options clock hnodes
  obtain ⟨hnone, hmeaning⟩ := (Findings.finish_result_eq_some_iff _ _).mp (hanalyzed ▸ h)
  obtain rfl := Option.some.inj hmeaning
  have hscopes : ∀ node ∈ nodes,
      (Analysis.scope lookup options clock node).findings.errors = [] := by
    have herrors := hbeside.errors.symm.trans hnone
    simpa [Findings.empty, List.flatMap_map] using herrors
  have helements : q.meaning.elements =
      nodes.flatMap fun node => (Analysis.scope lookup options clock node).meaning.elements :=
    hbeside.elements.trans (by rw [List.flatMap_map]; rfl)
  rw [helements, List.forall_mem_flatMap]
  refine forall₂_congr fun node hnode => ?_
  obtain ⟨item, _, hread, _⟩ := Analysis.exists_of_scope (hscopes node hnode)
  rw [Analysis.ne_nil_iff_of_scope hread (hscopes node hnode), hread]
  simp

/-- **All clauses have members** if no name of a field of metadata stands before a colon. -/
theorem ne_nil_of_analyze {root : Tree} (hroot : AvoidsIn NamesKind root) {m : Meaning}
    (h : (analyze lookup options clock root).result = some m) : ∀ c ∈ m.elements, c.union ≠ [] := by
  obtain ⟨nodes, hnodes, _⟩ := exists_of_analyze h
  refine (ne_nil_iff_of_analyze hnodes h).mpr fun node hnode item hread => ?_
  have havoids := hroot.of_infix (Query.infix_of_itemNodes hnodes node hnode)
  exact Analysis.not_asksForNone (Query.exists_of_readItem hread).1
    (Query.avoids_of_readItem havoids hread)

end PixQuery
