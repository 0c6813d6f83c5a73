import PixQuery.Proofs.Meaning.Rereading
import PixQuery.Proofs.Plan.Groups

/-!
# The items of a plan are understood again

Sort keys and free text are understood as what they were written for, and filters as well if they
are readable. The names of an item about entities are looked up again, and the item becomes what the
lookup finds: `ElementItem.reread` says what that is.

Results:
* `Analysis.analyzeItem_sortsItem`: the item that sorts.
* `Analysis.analyzeItem_filterItem`: an item of filters.
* `Analysis.analyzeItem_elementItem`: an item about names.
-/

namespace PixQuery

open Query (Part Path Value Predicate Relation Family Phrase Element Item Mark Direction)

/-- What an item about names of a kind becomes when its names are looked up again. -/
def ElementItem.reread (lookup : Lookup) (kind : ElementKind) (i : ElementItem) :
    Option ElementItem :=
  match kind with
  | .text => some i
  | .of k =>
    (resolveAll lookup k (i.union.map fun v => v.phrase.subject)).toOption.map fun union =>
      { i with union := union }

namespace Query

/-- An item that was read from one that was written. -/
theorem Item.of_unplaced {j : Item} {exclude source : Bool} {mark : Option Mark}
    {phrases : List Phrase} {r r' : Span}
    (h : j.unplaced = (Item.mk exclude source ⟨mark, phrases, r⟩ r').unplaced) :
    j.exclude = exclude ∧ j.source = source ∧ j.element.mark = mark ∧
      List.Forall₂ (fun p q => q.unplaced = p.unplaced) phrases j.element.phrases := by
  obtain ⟨e, s, ⟨m, ps, _⟩, _⟩ := j
  simp only [Item.unplaced, Element.unplaced, Item.mk.injEq, Element.mk.injEq] at h
  obtain ⟨rfl, rfl, ⟨rfl, hphrases, _⟩, _⟩ := h
  exact ⟨rfl, rfl, rfl, forall₂_of_map_eq hphrases⟩

theorem Path.parts_of_unplaced {p q : Path} (h : p.unplaced = q.unplaced) :
    p.parts.map Part.unplaced = q.parts.map Part.unplaced := by
  obtain ⟨hfirst, hothers⟩ := Path.mk.inj h
  rw [Path.parts, Path.parts, List.map_cons, List.map_cons, hfirst, hothers]

/-- What does not depend on the places of strings is the same of paths that are written alike. -/
theorem Path.map_parts_of_unplaced {p q : Path} (h : p.unplaced = q.unplaced) {β : Type}
    (f : Part → β) (hf : ∀ r, f r.unplaced = f r) : p.parts.map f = q.parts.map f := by
  have hfactor : ∀ r : Path, r.parts.map f = (r.parts.map Part.unplaced).map f := fun r => by
    rw [List.map_map]
    exact List.map_congr_left fun part _ => (hf part).symm
  rw [hfactor, hfactor, Path.parts_of_unplaced h]

/-- A phrase that was read from one that was written. -/
theorem Phrase.of_unplaced {p : Phrase} {subject : Path} {relation : Option Relation} {r : Span}
    (h : p.unplaced = (Phrase.mk subject relation r).unplaced) :
    p.subject.unplaced = subject.unplaced ∧
      p.relation.map Relation.unplaced = relation.map Relation.unplaced := by
  simp only [Phrase.unplaced, Phrase.mk.injEq] at h
  exact ⟨h.1, h.2.1⟩

end Query

/-- The lookup does not see where a path stands. -/
theorem nameParts_of_unplaced {p q : Path} (h : p.unplaced = q.unplaced) :
    nameParts p = nameParts q :=
  Path.map_parts_of_unplaced h _ fun _ => rfl

namespace Analysis

variable {lookup : Lookup} {options : CompilerOptions} {clock : Int}
  {present : List OrderKey} {j : Item}

/-! ## Sorting -/

/-- A word that says what a phrase is. -/
theorem classify_of_word {phrase : Phrase} {name : String} {subject : Subject}
    (h : phrase.subject.Is (quotedPart .word name))
    (hword : classifyWord phrase false name = .ok (some subject)) :
    classify false phrase = .ok subject := by
  obtain ⟨r, hsubject⟩ := h
  have hname : subjectWord? phrase = some name := by
    rw [subjectWord?, hsubject]
    rfl
  rw [classify, hname]
  simp only
  rw [hword]
  rfl

theorem classifyWord_order (phrase : Phrase) :
    classifyWord phrase false "order" = .ok (some .sort) :=
  if_pos (by decide)

/-- A sort key is read back from its preferred name. -/
theorem sortItem_of_unplaced {s : SortItem} {v : Value} (h : v.unplaced = s.value.unplaced) :
    sortItem v = .ok s := by
  have hfind : ∀ k : OrderKey, AliasEntry.find? OrderKey.names k.preferredName.name
      k.preferredName.source = some k := by
    intro k
    cases k <;> decide
  obtain ⟨direction, source, path, range⟩ := v
  obtain ⟨key, d⟩ := s
  simp only [Value.unplaced, SortItem.value, Value.mk.injEq] at h
  obtain ⟨rfl, rfl, hpath, _⟩ := h
  obtain ⟨r, rfl⟩ := Path.is_of_unplaced hpath
  have hkey : ((Path.ofPart
        ⟨(quotedPart .word key.preferredName.name).value, .word, r⟩).single?.bind fun p =>
      if p.kind.isText then none
      else AliasEntry.find? OrderKey.names p.value key.preferredName.source) = some key :=
    hfind key
  unfold sortItem
  simp only
  rw [show (quotedPart StringKind.word key.preferredName.name).kind = .word from rfl, hkey]
  cases d <;> rfl

theorem sortItems_of_unplaced {sorts : List SortItem} {vs : List Value} {present : List OrderKey}
    (h : List.Forall₂ (fun s v => v.unplaced = s.value.unplaced) sorts vs)
    (hn : (present ++ sorts.map SortItem.key).Nodup) : sortItems present vs = ([], .ok sorts) := by
  induction h generalizing present with
  | nil => rfl
  | @cons s v sorts vs hv _ ih =>
    have hmore : ((present ++ [s.key]) ++ sorts.map SortItem.key).Nodup := by simpa using hn
    have hnew : s.key ∉ present := fun hmem =>
      (List.nodup_append'.mp hn).2.2 hmem List.mem_cons_self
    have hcontains : present.contains s.key = false := by simpa using hnew
    rw [sortItems, sortItem_of_unplaced hv]
    simp only [hcontains, if_neg Bool.false_ne_true, ih hmore]
    rfl

/-- **The item that sorts** sorts by the keys that it was written with. -/
theorem analyzeItem_sortsItem {sorts : List SortItem} (hn : (sorts.map SortItem.key).Nodup)
    (h : j.unplaced = (sortsItem sorts).unplaced) :
    analyzeItem lookup options clock [] j = ([], .ok (.sorts sorts)) := by
  obtain ⟨hexclude, hsource, hmark, hphrases⟩ := Item.of_unplaced h
  obtain ⟨phrase, rest, hphrase, hrest, hall⟩ := List.forall₂_cons_left_iff.mp hphrases
  obtain rfl := List.forall₂_nil_left_iff.mp hrest
  obtain ⟨hsubject, hrelation⟩ := Phrase.of_unplaced hphrase
  obtain ⟨predicate, range, hrelation, hpredicate⟩ := Filtering.exists_binary hrelation
  have hsorts : Analysis.sorts [] phrase = ([], .ok sorts) := by
    cases predicate with
    | collection paths => cases hpredicate
    | range r => cases hpredicate
    | values vs =>
      have hvalues := Predicate.values.inj hpredicate
      rw [List.map_map] at hvalues
      rw [Analysis.sorts, hrelation]
      exact sortItems_of_unplaced (Query.forall₂_of_map_eq hvalues) hn
  have hclassify : [phrase].mapM (classify false) = .ok [.sort] := by
    rw [List.mapM_cons, classify_of_word (Path.is_of_unplaced hsubject) (classifyWord_order phrase)]
    rfl
  rw [analyzeItem, hmark, hall, hsource, hclassify]
  show sortingItem [] j = _
  rw [sortingItem, hall, hexclude, hsource]
  simp only [hsorts]
  rfl

/-- An item without a mark that does not sort. -/
theorem analyzeItem_of_subjects {subjects : List Subject} (hmark : j.element.mark = none)
    (hclassify : j.element.phrases.mapM (classify j.source) = .ok subjects)
    (hsort : Subject.sort ∉ subjects) :
    analyzeItem lookup options clock present j =
      ([], plainItem lookup options clock j subjects) := by
  rw [analyzeItem, hmark]
  simp only [hclassify]
  rw [if_neg (by simpa using hsort)]

/-! ## Filters -/

/-- The name that a field is written with is one of its names, and no other. -/
theorem classifyWord_plainName (phrase : Phrase) (f : Field) :
    classifyWord phrase false f.plainName = .ok (some (.field f)) := by
  obtain ⟨hsort, hkind, hfield⟩ : sortFieldName.isTyped f.plainName false = false ∧
      AliasEntry.find? Kind.names f.plainName false = none ∧
        AliasEntry.find? Field.names f.plainName false = some f := by
    cases f <;> decide
  simp only [classifyWord, hsort, hkind, hfield, ite_self, Bool.and_false,
    if_neg Bool.false_ne_true]

theorem classify_filter {f : Filter} {phrase : Phrase} (h : phrase.unplaced = f.phrase.unplaced) :
    classify false phrase = .ok (.field f.field) :=
  classify_of_word (Path.is_of_unplaced (Phrase.of_unplaced h).1)
    (classifyWord_plainName phrase f.field)

/-- The fields of an item with their phrases. -/
theorem forall₂_fields {R : Filter → Phrase → Prop} {fs : List Filter} {phrases : List Phrase}
    (h : List.Forall₂ R fs phrases) :
    List.Forall₂ (fun f (s : Field × Phrase) => s.1 = f.field ∧ R f s.2) fs
      (((fs.map fun f => Subject.field f.field).zip phrases).filterMap fun s =>
        match s.1 with
        | .field f => some (f, s.2)
        | .sort | .elementField _ | .text .. | .name | .sequence => none) := by
  induction h with
  | nil => exact .nil
  | cons hf _ ih => exact .cons ⟨rfl, hf⟩ ih

/-- An item of filters is understood phrase by phrase. -/
theorem analyzeItem_of_filters {g : FilterGroup} (hne : g.union ≠ [])
    (h : j.unplaced = g.queryItem.unplaced) : ∃ fields : List (Field × Phrase),
      analyzeItem lookup options clock present j = ([], filterItem options clock j fields) ∧
        List.Forall₂ (fun f s => s.1 = f.field ∧ s.2.unplaced = f.phrase.unplaced)
          g.union fields := by
  obtain ⟨_, hsource, hmark, hphrases⟩ := Item.of_unplaced h
  rw [List.forall₂_map_left_iff] at hphrases
  have hclassify : j.element.phrases.mapM (classify j.source) =
      .ok (g.union.map fun f => .field f.field) :=
    Understood.mapM_eq_ok hphrases fun f _ phrase hphrase => by
      rw [hsource]
      exact classify_filter hphrase
  refine ⟨_, ?_, forall₂_fields hphrases⟩
  obtain ⟨f, fs, hunion⟩ := List.exists_cons_of_ne_nil hne
  have hany : (g.union.map fun f => Subject.field f.field).any Subject.isField = true := by
    rw [hunion]
    rfl
  have hall : (g.union.map fun f => Subject.field f.field).all Subject.isField = true := by
    rw [List.all_map, List.all_eq_true]
    exact fun _ _ => rfl
  have hkinds : (g.union.map fun f => Subject.field f.field).filterMap
      Subject.elementKind? = [] := by
    rw [List.filterMap_map]
    exact List.filterMap_eq_nil_iff.mpr fun _ _ => rfl
  rw [analyzeItem_of_subjects hmark hclassify (by simp)]
  rw [plainItem, if_pos hany, if_pos hall]
  refine congrArg (Prod.mk []) ?_
  unfold fieldItem
  split
  · rfl
  · next hkind => cases hkinds.symm.trans hkind

theorem filterItem_of_isReadable {g : FilterGroup} (hne : g.union ≠ [])
    (hf : ∀ f ∈ g.union, f.Fits) (hr : ∀ f ∈ g.union, f.IsReadable)
    {fields : List (Field × Phrase)}
    (h : List.Forall₂ (fun f s => s.1 = f.field ∧ s.2.unplaced = f.phrase.unplaced)
      g.union fields) :
    filterItem options clock j fields = .ok (.filter ⟨j.exclude, g.union, j.range⟩) := by
  have hgroups :
      (fields.mapM fun s => Filtering.filters (options.year clock) options.rangeBounds s.1 s.2) =
      .ok (g.union.map fun f => [f]) :=
    Understood.mapM_eq_ok h fun f hmem s hs => by
      rw [hs.1]
      exact (Filtering.means_of_unplaced (hf f hmem) (Phrase.of_unplaced hs.2).2).1 (hr f hmem)
  have hflat : (g.union.map fun f => [f]).flatten = g.union := by
    rw [← List.flatMap_def, List.flatMap_singleton']
  obtain ⟨f, fs, hunion⟩ := List.exists_cons_of_ne_nil hne
  rw [filterItem, hgroups, Understood.ok_bind, hflat, hunion]
  rfl

theorem isReadable_of_filterItem {g : FilterGroup} (hf : ∀ f ∈ g.union, f.Fits)
    {fields : List (Field × Phrase)}
    (h : List.Forall₂ (fun f s => s.1 = f.field ∧ s.2.unplaced = f.phrase.unplaced) g.union fields)
    {c : Contribution} (hc : filterItem options clock j fields = .ok c) :
    ∀ f ∈ g.union, f.IsReadable := by
  intro f hmem
  obtain ⟨groups, hgroups, _⟩ := Understood.exists_of_bind hc
  obtain ⟨s, hs, fs, hfs⟩ := Understood.exists_of_mapM_eq_ok h hgroups f hmem
  rw [hs.1] at hfs
  exact (Filtering.means_of_unplaced (hf f hmem) (Phrase.of_unplaced hs.2).2).2 fs hfs

/-! ## Names -/

/-- Paths that are written alike mean the same, or both mean nothing for the same cause. -/
theorem resolve_of_unplaced {kind : Kind} {p q : Path} (h : p.unplaced = q.unplaced) :
    (∃ found, resolve lookup kind p = .ok found ∧ resolve lookup kind q = .ok found) ∨
      ∃ cause, resolve lookup kind p = .error ⟨cause, p.range⟩ ∧
        resolve lookup kind q = .error ⟨cause, q.range⟩ := by
  have hlength : p.parts.length = q.parts.length := by
    simpa using congrArg List.length (Path.parts_of_unplaced h)
  have hjoined : p.joined = q.joined :=
    congrArg (".".intercalate) (Path.map_parts_of_unplaced h Part.value fun _ => rfl)
  simp only [resolve, hlength, nameParts_of_unplaced h, hjoined]
  split
  · exact .inr ⟨_, rfl, rfl⟩
  split
  · exact .inr ⟨_, rfl, rfl⟩
  split
  · exact .inr ⟨_, rfl, rfl⟩
  · exact .inl ⟨_, rfl, rfl⟩

/-- Paths that were read are looked up as those that were written. -/
theorem toOption_resolve {kind : Kind} {p q : Path} (h : p.unplaced = q.unplaced) :
    (resolve lookup kind p).toOption = (resolve lookup kind q).toOption := by
  obtain ⟨found, hp, hq⟩ | ⟨cause, hp, hq⟩ := @resolve_of_unplaced lookup kind p q h
  · rw [hp, hq]
  · rw [hp, hq]
    rfl

theorem toOption_resolveAll {kind : Kind} {ps qs : List Path}
    (h : List.Forall₂ (fun p q => q.unplaced = p.unplaced) ps qs) :
    (resolveAll lookup kind qs).toOption = (resolveAll lookup kind ps).toOption := by
  rw [resolveAll, resolveAll, Understood.toOption_map, Understood.toOption_map]
  congr 1
  induction h with
  | nil => rfl
  | cons hq _ ih => simp only [List.mapM_cons, Understood.toOption_bind, toOption_resolve hq, ih]

/-- A clause about entities. -/
theorem exists_entities {P : Kind → Entity → Prop} {k : Kind} {union : List ElementValue}
    (h : (ElementKind.of k).Holds P union) :
    ∃ es : List Entity, union = es.map .entity ∧ ∀ e ∈ es, P k e := by
  induction union with
  | nil => exact ⟨[], rfl, fun e he => by cases he⟩
  | cons v union ih =>
    obtain ⟨e, rfl, he⟩ := h v List.mem_cons_self
    obtain ⟨es, rfl, hes⟩ := ih fun w hw => h w (List.mem_cons_of_mem _ hw)
    refine ⟨e :: es, rfl, fun e' he' => ?_⟩
    rcases List.mem_cons.mp he' with rfl | he'
    · exact he
    · exact hes e' he'

/-- The path of an entity was read as names. -/
theorem not_isText_of_unplaced {p : Path} {e : Entity} (h : p.unplaced = e.typedPath.unplaced) :
    (p.parts.any fun q => q.kind.isText) = false := by
  have hfactor : ∀ r : Path, (r.parts.any fun q => q.kind.isText) =
      (r.parts.map Part.unplaced).any fun q => q.kind.isText := fun r => by
    rw [List.any_map]
    rfl
  rw [hfactor, Path.parts_of_unplaced h, ← hfactor, Entity.parts_typedPath, List.any_map,
    List.any_eq_false]
  intro name _
  simp only [Function.comp, typedPart, quotedPart]
  split <;> decide

/-- What is looked up for the phrases of an item about entities. -/
theorem toOption_resolveAll_of_entities {k : Kind} {es : List Entity} {phrases : List Phrase}
    (h : List.Forall₂ (fun e p => p.unplaced = (ElementValue.entity e).phrase.unplaced)
      es phrases) :
    (resolveAll lookup k (phrases.map Phrase.subject)).toOption =
      (resolveAll lookup k
        ((es.map ElementValue.entity).map fun v => v.phrase.subject)).toOption := by
  refine toOption_resolveAll ?_
  rw [List.forall₂_map_left_iff, List.forall₂_map_left_iff, List.forall₂_map_right_iff]
  exact h.imp fun _ _ hp => (Phrase.of_unplaced hp).1

/-- What the phrase of a free text is. -/
def textSubject : ElementValue → Subject
  | .text value exact => .text value exact
  | .entity _ => .name

theorem classify_text {value : String} {exact : Bool} {phrase : Phrase}
    (h : phrase.unplaced = (ElementValue.text value exact).phrase.unplaced) :
    classify false phrase = .ok (.text value exact) := by
  obtain ⟨path, relation, range⟩ := phrase
  obtain ⟨hsubject, hrelation⟩ := Phrase.of_unplaced h
  obtain ⟨r, rfl⟩ := Path.is_of_unplaced hsubject
  obtain rfl : relation = none := Option.map_eq_none_iff.mp hrelation
  cases exact <;> rfl

/-- **An item of free text** is understood as it was written. -/
theorem analyzeItem_texts {i : ElementItem} {P : Kind → Entity → Prop}
    (hi : ElementKind.text.Holds P i.union) (h : j.unplaced = (i.queryItem .text).unplaced) :
    analyzeItem lookup options clock present j =
      ([], .ok (.element ⟨.text, j.exclude, i.union, j.range⟩)) := by
  obtain ⟨hne, htexts⟩ := hi
  obtain ⟨_, hsource, hmark, hphrases⟩ := Item.of_unplaced h
  have hsource : j.source = false := hsource
  rw [List.forall₂_map_left_iff] at hphrases
  have hclassify : j.element.phrases.mapM (classify j.source) = .ok (i.union.map textSubject) :=
    Understood.mapM_eq_ok hphrases fun v hv phrase hphrase => by
      obtain ⟨value, exact, rfl⟩ := htexts v hv
      rw [hsource]
      exact classify_text hphrase
  have hsubjects : ∀ s ∈ i.union.map textSubject, ∃ value exact, s = .text value exact := by
    intro s hs
    obtain ⟨v, hv, rfl⟩ := List.mem_map.mp hs
    obtain ⟨value, exact, rfl⟩ := htexts v hv
    exact ⟨value, exact, rfl⟩
  have hsort : Subject.sort ∉ i.union.map textSubject := fun hmem => by
    obtain ⟨_, _, hs⟩ := hsubjects _ hmem
    cases hs
  have hfield : (i.union.map textSubject).any Subject.isField = false :=
    List.any_eq_false.mpr fun s hs => by
      obtain ⟨_, _, rfl⟩ := hsubjects s hs
      exact Bool.false_ne_true
  have hall : ∀ s ∈ i.union.map textSubject, s.isText = true := fun s hs => by
    obtain ⟨_, _, rfl⟩ := hsubjects s hs
    rfl
  obtain ⟨s, hs⟩ := List.exists_mem_of_ne_nil _ (mt List.map_eq_nil_iff.mp hne)
  have hany : (i.union.map textSubject).any Subject.isText = true :=
    List.any_eq_true.mpr ⟨s, hs, hall s hs⟩
  have hunion : (i.union.map textSubject).filterMap Subject.textValue? = i.union := by
    rw [List.filterMap_map]
    refine (List.filterMap_congr fun v hv => ?_).trans List.filterMap_some
    obtain ⟨value, exact, rfl⟩ := htexts v hv
    rfl
  rw [analyzeItem_of_subjects hmark hclassify hsort]
  simp only [plainItem, hfield, if_neg Bool.false_ne_true, hany, List.all_eq_true.mpr hall, if_true,
    textItem, hsource, hunion]
  rfl

theorem markedPhrase_of_entity {bounds : RangeBounds} {k : Kind} {e : Entity} {phrase : Phrase}
    (h : phrase.unplaced = (ElementValue.entity e).phrase.unplaced) :
    markedPhrase lookup bounds k phrase = resolve lookup k phrase.subject := by
  obtain ⟨hsubject, hrelation⟩ := Phrase.of_unplaced h
  have hrelation : phrase.relation = none := Option.map_eq_none_iff.mp hrelation
  have htext := not_isText_of_unplaced hsubject
  rw [markedPhrase, hrelation]
  simp only [Option.filter_none, htext, if_neg Bool.false_ne_true, Option.isSome_none]

/-- An item of entities behind the mark of their kind. -/
theorem analyzeItem_marked {i : ElementItem} {mark : Mark} {es : List Entity}
    (hunion : i.union = es.map .entity)
    (h : j.unplaced = (i.queryItem (.of (markKind mark))).unplaced)
    (hmark : (ElementKind.of (markKind mark)).queryMark = some mark)
    (hsource : (ElementKind.of (markKind mark) == .of .sourceTag) = false) :
    (analyzeItem lookup options clock present j).2.toOption =
      (i.reread lookup (.of (markKind mark))).map fun i' =>
        .element ⟨.of (markKind mark), i'.exclude, i'.union, j.range⟩ := by
  obtain ⟨hexclude, hs, hm, hphrases⟩ := Item.of_unplaced h
  rw [hunion, List.forall₂_map_left_iff, List.forall₂_map_left_iff] at hphrases
  have hresolve := @toOption_resolveAll_of_entities lookup (markKind mark) es _ hphrases
  have hgroups : j.element.phrases.mapM (markedPhrase lookup options.rangeBounds (markKind mark)) =
      (j.element.phrases.map Phrase.subject).mapM (resolve lookup (markKind mark)) := by
    rw [List.mapM_map]
    exact Understood.mapM_congr hphrases fun e phrase hp => markedPhrase_of_entity hp
  rw [analyzeItem, hm, hmark]
  simp only [markedItem, hs, hsource, if_neg Bool.false_ne_true, hgroups, Understood.toOption_map,
    Understood.toOption_bind]
  rw [ElementItem.reread, hunion, ← hresolve, resolveAll, Understood.toOption_map, hexclude]
  cases ((j.element.phrases.map Phrase.subject).mapM (resolve lookup (markKind mark))).toOption <;>
    rfl

/-- The path of a source tag has two parts, so it is no field. -/
theorem classify_sourceTag {e : Entity} (he : e.kind = .sourceTag) {phrase : Phrase}
    (h : phrase.unplaced = (ElementValue.entity e).phrase.unplaced) :
    classify true phrase = .ok .name := by
  obtain ⟨hsubject, hrelation⟩ := Phrase.of_unplaced h
  have hrelation : phrase.relation = none := Option.map_eq_none_iff.mp hrelation
  have hsingle : phrase.subject.single? = none := by
    cases e with
    | tag t => cases he
    | topic t => cases he
    | author a => cases he
    | sourceTag s =>
      obtain ⟨_, hothers⟩ := Query.Path.mk.inj hsubject
      obtain ⟨part, hpart, _⟩ := List.map_eq_singleton_iff.mp hothers
      rw [Path.single?, hpart]
  have hword : subjectWord? phrase = none := by
    rw [subjectWord?, hsingle]
    rfl
  rw [classify, hword]
  simp only
  show classifyName phrase true = _
  rw [classifyName, hrelation, hsingle]
  rfl

/-- An item of source tags. -/
theorem analyzeItem_sourceTags {i : ElementItem} {es : List Entity}
    (hunion : i.union = es.map .entity) (hes : ∀ e ∈ es, e.kind = .sourceTag)
    (h : j.unplaced = (i.queryItem (.of .sourceTag)).unplaced) :
    (analyzeItem lookup options clock present j).2.toOption =
      (i.reread lookup (.of .sourceTag)).map fun i' =>
        .element ⟨.of .sourceTag, i'.exclude, i'.union, j.range⟩ := by
  obtain ⟨hexclude, hs, hm, hphrases⟩ := Item.of_unplaced h
  have hsource : j.source = true := hs
  rw [hunion, List.forall₂_map_left_iff, List.forall₂_map_left_iff] at hphrases
  have hresolve := @toOption_resolveAll_of_entities lookup .sourceTag es _ hphrases
  have hclassify : j.element.phrases.mapM (classify j.source) = .ok (es.map fun _ => .name) :=
    Understood.mapM_eq_ok hphrases fun e he phrase hp => by
      rw [hsource]
      exact classify_sourceTag (hes e he) hp
  have hfield : (es.map fun _ => Subject.name).any Subject.isField = false := by
    simp [Subject.isField]
  have htext : (es.map fun _ => Subject.name).any Subject.isText = false := by
    simp [Subject.isText]
  have hsequence : (es.map fun _ => Subject.name).contains .sequence = false := by simp
  rw [analyzeItem_of_subjects hm hclassify (by simp)]
  simp only [plainItem, hfield, htext, nameItem, hsequence, hsource,
    if_neg Bool.false_ne_true, if_true, Understood.toOption_bind]
  rw [ElementItem.reread, hunion, ← hresolve, hexclude]
  cases (resolveAll lookup .sourceTag (j.element.phrases.map Phrase.subject)).toOption <;> rfl

/-- **An item about names** becomes what its names are looked up as. -/
theorem analyzeItem_elementItem {P : Kind → Entity → Prop}
    (hP : ∀ e, P .sourceTag e → e.kind = .sourceTag) {kind : ElementKind} {i : ElementItem}
    (hi : kind.Holds P i.union) (h : j.unplaced = (i.queryItem kind).unplaced) :
    (analyzeItem lookup options clock present j).2.toOption =
      (i.reread lookup kind).map fun i' => .element ⟨kind, i'.exclude, i'.union, j.range⟩ := by
  cases kind with
  | text =>
    have hexclude : j.exclude = i.exclude := (Item.of_unplaced h).1
    rw [analyzeItem_texts hi h, hexclude]
    rfl
  | of k =>
    obtain ⟨es, hunion, hes⟩ := exists_entities hi
    cases k with
    | tag => exact @analyzeItem_marked lookup options clock present j i .tag es hunion h rfl rfl
    | topic => exact @analyzeItem_marked lookup options clock present j i .topic es hunion h rfl rfl
    | author =>
      exact @analyzeItem_marked lookup options clock present j i .author es hunion h rfl rfl
    | sourceTag => exact analyzeItem_sourceTags hunion (fun e he => hP e (hes e he)) h

end Analysis

end PixQuery
