import PixQuery.Proofs.Meaning.Slices
import PixQuery.Proofs.Meaning.WellTyped

/-!
# Phrases of an item in another order

The phrases of an item are joined by bars, and it does not matter in which order they stand. What
the phrases are, whether they may stand together, which kind their names are of and whether each of
them means something can all be told from any order. Only the members of unions come in the order of
the phrases, and of entities with one kind and number the first that is met becomes the member.

Results:
* `mem_identities_unionOf`: which entities a union of groups names.
* `Analysis.alike_resolveBare`: names without a mark are of the same kind in any order.
* `Analysis.alike_analyzeItem`: an item adds the same in any order of its phrases, but for the order
  of members, or is at fault in any.
-/

namespace PixQuery

open Query (Path Phrase Item Mark)
open Understood (Alike)

/-! ## Unions -/

theorem identities_concat (union : List ElementValue) (e : Entity) :
    identities (union ++ [.entity e]) = identities union ++ [(e.kind, e.id)] := by
  simp [identities, ElementValue.entity?]

theorem mem_identities_addEntities {i : Kind × UInt64} : ∀ {found : List Entity}
    {union : List ElementValue}, i ∈ identities (addEntities union found) ↔
      i ∈ identities union ∨ ∃ e ∈ found, (e.kind, e.id) = i
  | [], union => by simp [addEntities]
  | e :: found, union => by
    show i ∈ identities (addEntities (if isMember union e then union else union ++ [.entity e])
      found) ↔ _
    rw [mem_identities_addEntities, List.exists_mem_cons_iff, ← or_assoc]
    refine or_congr_left ?_
    by_cases hmember : isMember union e = true
    · rw [if_pos hmember]
      refine (or_iff_left_of_imp ?_).symm
      rintro rfl
      exact isMember_iff.mp hmember
    · rw [if_neg hmember, identities_concat, List.mem_append, List.mem_singleton, eq_comm (a := i)]

/-- **What a union of groups names**: the entities of its groups, each by its kind and number. -/
theorem mem_identities_unionOf {i : Kind × UInt64} {groups : List (List Entity)} :
    i ∈ identities (unionOf groups) ↔ ∃ found ∈ groups, ∃ e ∈ found, (e.kind, e.id) = i := by
  have hfold : ∀ (groups : List (List Entity)) (union : List ElementValue),
      i ∈ identities (groups.foldl addEntities union) ↔
        i ∈ identities union ∨ ∃ found ∈ groups, ∃ e ∈ found, (e.kind, e.id) = i := by
    intro groups
    induction groups with
    | nil => simp
    | cons found groups ih =>
      intro union
      rw [List.foldl_cons, ih, mem_identities_addEntities, List.exists_mem_cons_iff, or_assoc]
  rw [unionOf, hfold]
  simp [identities]

/-- The unions name the same texts, and the same entities by kind and number. -/
structure SameMembers (union union' : List ElementValue) : Prop where
  texts : ∀ value exact, .text value exact ∈ union ↔ .text value exact ∈ union'
  entities : ∀ i, i ∈ identities union ↔ i ∈ identities union'

theorem SameMembers.of_perm {union union' : List ElementValue} (h : union.Perm union') :
    SameMembers union union' where
  texts _ _ := h.mem_iff
  entities _ := ((h.filterMap _).map _).mem_iff

theorem sameMembers_unionOf {groups groups' : List (List Entity)} (h : groups.Perm groups') :
    SameMembers (unionOf groups) (unionOf groups') where
  texts value exact := by
    have hnone : ∀ groups, .text value exact ∉ unionOf groups := fun groups hmem => by
      obtain ⟨_, _, _, _, hentity⟩ := mem_unionOf hmem
      cases hentity
    exact iff_of_false (hnone groups) (hnone groups')
  entities i := by
    simp only [mem_identities_unionOf, h.mem_iff]

namespace Analysis

/-! ## Contributions -/

/-- The clauses say the same of the same members. -/
structure SameClause (c d : ElementClause) : Prop where
  kind : c.kind = d.kind
  exclude : c.exclude = d.exclude
  members : SameMembers c.union d.union

/-- Two items add the same, but for the order of the members of a union. -/
inductive Contribution.SameButOrder : Contribution → Contribution → Prop
  | sorts (items : List SortItem) : SameButOrder (sorts items) (sorts items)
  | element {c d : ElementClause} (h : SameClause c d) : SameButOrder (element c) (element d)
  | filter {c d : FilterClause} (hexclude : c.exclude = d.exclude) (hunion : c.union.Perm d.union) :
    SameButOrder (filter c) (filter d)
  | nothing : SameButOrder nothing nothing

/-- An item with other phrases in its element. -/
def withPhrases (item : Item) (phrases : List Phrase) : Item :=
  { item with element := { item.element with phrases := phrases } }

variable {lookup : Lookup} {options : CompilerOptions} {clock : Int}
  {bounds : RangeBounds} {item : Item} {phrases : List Phrase} {subjects subjects' : List Subject}

/-! ## Names -/

theorem alike_resolveAll {kind : Kind} {paths paths' : List Path} (h : paths.Perm paths') :
    Alike SameMembers (resolveAll lookup kind paths) (resolveAll lookup kind paths') :=
  (Understood.alike_mapM_of_perm h).map fun _ _ hgroups => sameMembers_unionOf hgroups.1

/-- Names without a mark are of the same kind in any order. -/
theorem alike_resolveBare {paths paths' : List Path} (h : paths.Perm paths') :
    Alike (fun r r' => r.1 = r'.1 ∧ SameMembers r.2 r'.2) (resolveBare lookup paths)
      (resolveBare lookup paths') := by
  have hkind := fun kind => (@alike_resolveAll lookup kind _ _ h).cases
  unfold resolveBare
  obtain ⟨u, u', hu, hu', hsame⟩ | ⟨f, f', hf, hf'⟩ := hkind .tag
  · rw [hu, hu']
    exact ⟨rfl, hsame⟩
  rw [hf, hf']
  obtain ⟨u, u', hu, hu', hsame⟩ | ⟨g, g', hg, hg'⟩ := hkind .topic
  · simp only [hu, hu']
    exact ⟨rfl, hsame⟩
  simp only [hg, hg']
  obtain ⟨u, u', hu, hu', hsame⟩ | ⟨k, k', hk, hk'⟩ := hkind .author
  · simp only [hu, hu']
    exact ⟨rfl, hsame⟩
  -- no kind fits in either order, and whichever name is at fault, there is a fault
  simp only [hk, hk']
  split <;> split <;> trivial

/-! ## Items -/

theorem alike_markedItem (mark : Mark) (h : item.element.phrases.Perm phrases) :
    Alike SameClause (markedItem lookup bounds item mark)
      (markedItem lookup bounds (withPhrases item phrases) mark) :=
  .ite Iff.rfl trivial ((Understood.alike_mapM_of_perm h).bind fun _ _ hgroups =>
    ⟨rfl, rfl, sameMembers_unionOf hgroups.1⟩)

theorem alike_textItem (h : subjects.Perm subjects') :
    Alike SameClause (textItem item subjects) (textItem (withPhrases item phrases) subjects') :=
  .ite Iff.rfl trivial ⟨rfl, rfl, .of_perm (h.filterMap _)⟩

theorem alike_nameItem (h : item.element.phrases.Perm phrases) (hs : subjects.Perm subjects')
    (hzip : (subjects.zip item.element.phrases).Perm (subjects'.zip phrases)) :
    Alike SameClause (nameItem lookup bounds item subjects)
      (nameItem lookup bounds (withPhrases item phrases) subjects') := by
  have hcontains : subjects.contains .sequence = true ↔ subjects'.contains .sequence = true := by
    rw [List.contains_iff_mem, List.contains_iff_mem, hs.mem_iff]
  refine .ite hcontains ?_ (.ite Iff.rfl ?_ ?_)
  · exact (Understood.alike_mapM_of_perm hzip).bind fun _ _ hgroups =>
      ⟨rfl, rfl, sameMembers_unionOf hgroups.1⟩
  · exact (alike_resolveAll (h.map _)).bind fun _ _ hunion => ⟨rfl, rfl, hunion⟩
  · exact (alike_resolveBare (h.map _)).bind fun _ _ hresult =>
      ⟨congrArg ElementKind.of hresult.1, rfl, hresult.2⟩

theorem alike_filterItem {fields fields' : List (Field × Phrase)} (h : fields.Perm fields') :
    Alike Contribution.SameButOrder (filterItem options clock item fields)
      (filterItem options clock (withPhrases item phrases) fields') := by
  refine (Understood.alike_mapM_of_perm h).bind fun groups groups' hgroups => ?_
  have hflat : groups.flatten.Perm groups'.flatten := hgroups.1.flatten
  cases hunion : groups.flatten with
  | nil =>
    rw [hunion] at hflat
    rw [hflat.nil_eq.symm]
    exact .nothing
  | cons f fs =>
    cases hunion' : groups'.flatten with
    | nil => cases (hunion' ▸ hunion ▸ hflat).eq_nil
    | cons f' fs' => exact .filter rfl (hunion' ▸ hunion ▸ hflat)

/-- Whether there is another kind than the first does not depend on which kind comes first. -/
theorem any_ne_iff {kind : Kind} {kinds : List Kind} : (kinds.any fun k => k ≠ kind) = true ↔
    ¬∀ k ∈ kind :: kinds, ∀ k' ∈ kind :: kinds, k = k' := by
  simp only [List.any_eq_true, decide_eq_true_eq]
  constructor
  · rintro ⟨k, hk, hne⟩ hall
    exact hne (hall k (List.mem_cons_of_mem kind hk) kind List.mem_cons_self)
  · intro hnot
    by_contra hnone
    have hall : ∀ k ∈ kind :: kinds, k = kind := by
      intro k hk
      rcases List.mem_cons.mp hk with rfl | hk
      · rfl
      · exact not_not.mp fun hne => hnone ⟨k, hk, hne⟩
    exact hnot fun k hk k' hk' => (hall k hk).trans (hall k' hk').symm

theorem alike_elementFieldItem {kind kind' : Kind} {kinds kinds' : List Kind}
    (h : item.element.phrases.Perm phrases) (hkinds : (kind :: kinds).Perm (kind' :: kinds')) :
    Alike SameClause (elementFieldItem lookup item kind kinds)
      (elementFieldItem lookup (withPhrases item phrases) kind' kinds') := by
  have hmixed : (kinds.any fun k => k ≠ kind) = (kinds'.any fun k => k ≠ kind') := by
    rw [Bool.eq_iff_iff, any_ne_iff, any_ne_iff]
    simp only [hkinds.mem_iff]
  unfold elementFieldItem
  rw [hmixed]
  by_cases hany : (kinds'.any fun k => k ≠ kind') = true
  · rw [if_pos hany, if_pos hany]
    trivial
  · obtain rfl : kind = kind' := by
      have hall := not_not.mp (mt any_ne_iff.mpr hany)
      exact hall kind (hkinds.mem_iff.mp List.mem_cons_self) kind' List.mem_cons_self
    rw [if_neg hany, if_neg hany]
    refine (Understood.alike_mapM_of_perm h).bind fun _ _ hpaths => ?_
    exact (alike_resolveAll hpaths.1.flatten).bind fun _ _ hunion => ⟨rfl, rfl, hunion⟩

theorem alike_fieldItem (h : item.element.phrases.Perm phrases) (hs : subjects.Perm subjects')
    (hzip : (subjects.zip item.element.phrases).Perm (subjects'.zip phrases)) :
    Alike Contribution.SameButOrder (fieldItem lookup options clock item subjects)
      (fieldItem lookup options clock (withPhrases item phrases) subjects') := by
  have hkinds : (subjects.filterMap Subject.elementKind?).Perm
      (subjects'.filterMap Subject.elementKind?) := hs.filterMap _
  unfold fieldItem
  cases hleft : subjects.filterMap Subject.elementKind? with
  | nil =>
    rw [hleft] at hkinds
    rw [hkinds.nil_eq.symm]
    exact alike_filterItem (hzip.filterMap _)
  | cons kind kinds =>
    cases hright : subjects'.filterMap Subject.elementKind? with
    | nil => cases (hright ▸ hleft ▸ hkinds).eq_nil
    | cons kind' kinds' =>
      rw [hleft, hright] at hkinds
      have hlength : kinds.length + 1 = kinds'.length + 1 := hkinds.length_eq
      simp only [hlength, hs.length_eq]
      split
      · trivial
      · exact (alike_elementFieldItem h hkinds).bind fun _ _ hclause => .element hclause

theorem alike_plainItem (h : item.element.phrases.Perm phrases) (hs : subjects.Perm subjects')
    (hzip : (subjects.zip item.element.phrases).Perm (subjects'.zip phrases)) :
    Alike Contribution.SameButOrder (plainItem lookup options clock item subjects)
      (plainItem lookup options clock (withPhrases item phrases) subjects') := by
  have hany : ∀ p : Subject → Bool, subjects.any p = true ↔ subjects'.any p = true := fun p => by
    simp only [List.any_eq_true, hs.mem_iff]
  have hall : ∀ p : Subject → Bool, subjects.all p = true ↔ subjects'.all p = true := fun p => by
    simp only [List.all_eq_true, hs.mem_iff]
  refine .ite (hany _) (.ite (hall _) ?_ trivial) (.ite (hany _) (.ite (hall _) ?_ trivial) ?_)
  · exact alike_fieldItem h hs hzip
  · exact (alike_textItem hs).bind fun _ _ hclause => .element hclause
  · exact (alike_nameItem h hs hzip).bind fun _ _ hclause => .element hclause

/-- An item that sorts has one phrase, which stands in one order only. -/
theorem alike_sortingItem {present : List OrderKey} (h : item.element.phrases.Perm phrases) :
    Alike Contribution.SameButOrder (sortingItem present item).2
      (sortingItem present (withPhrases item phrases)).2 := by
  have hself : ∀ x : Understood (List SortItem),
      Alike Contribution.SameButOrder (x.map .sorts) (x.map .sorts) := fun x => by
    cases x with
    | ok items => exact .sorts items
    | error fault => trivial
  by_cases hone : ∃ phrase, item.element.phrases = [phrase]
  · obtain ⟨phrase, hphrase⟩ := hone
    have hsame : withPhrases item phrases = item := by
      have hphrases : phrases = [phrase] := List.perm_singleton.mp (hphrase ▸ h.symm)
      rw [withPhrases, hphrases, ← hphrase]
    rw [hsame, sortingItem, hphrase]
    simp only
    split
    · trivial
    · exact hself _
  · have hfault : ∀ i : Item, (¬∃ phrase, i.element.phrases = [phrase]) →
        (sortingItem present i).2 = .error ⟨.sortNotAlone, i.range⟩ := fun i hi => by
      unfold sortingItem
      split
      · rename_i phrase hphrase
        exact absurd ⟨phrase, hphrase⟩ hi
      · rfl
    have hother : ¬∃ phrase, (withPhrases item phrases).element.phrases = [phrase] := by
      rintro ⟨phrase, hphrase⟩
      exact hone ⟨phrase, List.perm_singleton.mp ((show phrases = [phrase] from hphrase) ▸ h)⟩
    rw [hfault item hone, hfault _ hother]
    trivial

/-- **The order of phrases does not matter**: with its phrases in another order an item is
understood if it was, and then adds the same sort items, a clause of the same kind about the same
texts or entities, or a clause of the same filters. -/
theorem alike_analyzeItem (lookup : Lookup) (options : CompilerOptions) (clock : Int)
    (present : List OrderKey)
    {item : Item} {phrases : List Phrase} (h : item.element.phrases.Perm phrases) :
    Alike Contribution.SameButOrder (analyzeItem lookup options clock present item).2
      (analyzeItem lookup options clock present (withPhrases item phrases)).2 := by
  unfold analyzeItem
  cases hmark : item.element.mark with
  | some mark =>
    rw [show (withPhrases item phrases).element.mark = some mark from hmark]
    exact (alike_markedItem mark h).map fun _ _ hclause => .element hclause
  | none =>
    rw [show (withPhrases item phrases).element.mark = none from hmark]
    have hsource : (withPhrases item phrases).source = item.source := rfl
    have hphrases : (withPhrases item phrases).element.phrases = phrases := rfl
    simp only [hsource, hphrases]
    obtain ⟨subjects, subjects', hs, hs', hperm, hzip⟩ | ⟨f, f', hf, hf'⟩ :=
      (Understood.alike_mapM_of_perm (f := classify item.source) h).cases
    · have hsort : subjects.contains .sort = subjects'.contains .sort := by
        rw [Bool.eq_iff_iff, List.contains_iff_mem, List.contains_iff_mem, hperm.mem_iff]
      simp only [hs, hs', hsort]
      split
      · exact alike_sortingItem h
      · exact alike_plainItem h hperm hzip
    · rw [hf, hf']
      trivial

/-- A tag and all behind it, beside the tag before it: the first members come from whichever
phrase stands first. -/
theorem alike_analyzeItem_series :
    let behindTwo : Phrase :=
      ⟨Sequence.wordPath "two", some (.unary .ascending (.point 0)), .point 0⟩
    let one : Phrase := ⟨Sequence.wordPath "one", none, .point 0⟩
    let item : Item := ⟨false, false, ⟨none, [behindTwo, one], .point 0⟩, .point 0⟩
    let outcome (i : Item) := (analyzeItem Sequence.seriesSnapshot.lookup .default 2021 [] i).2
    let members : Contribution → List UInt64
      | .element c => (identities c.union).map Prod.snd
      | .sorts _ | .filter _ | .nothing => []
    (outcome item).map members = .ok [3, 4, 2] ∧
      (outcome (withPhrases item [one, behindTwo])).map members = .ok [2, 3, 4] ∧
      Alike Contribution.SameButOrder (outcome item)
        (outcome (withPhrases item [one, behindTwo])) := by
  intro behindTwo one item outcome members
  exact ⟨by decide +kernel, by decide +kernel,
    alike_analyzeItem _ _ _ _ (List.Perm.swap one behindTwo [])⟩

end Analysis

end PixQuery
