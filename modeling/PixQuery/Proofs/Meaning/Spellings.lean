import PixQuery.Proofs.Meaning.Slices
import PixQuery.Proofs.Plan.Rereading

/-!
# Ways to write a union of names

That an image has one of some tags can be written with a mark before the names, `$a|b`, or with the
field of tags: with a collection `tag:{a,b}`, with a list `tag:a,b` or with a bar between fields,
`tag:a|tag:b`. Topics and authors have the same four forms. Each form is understood in its own way,
but all of them look the names up one by one in the order they are written in.

Results:
* `Analysis.analyzeItem_of_spells`: what an item in any of the forms adds.
* `resolveAll_of_unplaced`: names that are written alike mean the same members, or the same one of
  them is at fault.
* `Analysis.analyzeItem_spellings`: the forms say the same.
-/

namespace PixQuery

open Query (Path Value Predicate Relation Phrase Item Mark)

/-- Rows of parts that are understood one like the other. -/
theorem Understood.mapM_eq_mapM {α β γ : Type} {R : γ → α → Prop} {f : α → Understood β}
    {g : γ → Understood β} {cs : List γ} {as : List α} (hcs : List.Forall₂ R cs as)
    (h : ∀ c ∈ cs, ∀ a, R c a → f a = g c) : as.mapM f = cs.mapM g := by
  induction hcs with
  | nil => rfl
  | cons hca _ ih =>
    rw [List.mapM_cons, List.mapM_cons, h _ List.mem_cons_self _ hca,
      ih fun c hc => h c (List.mem_cons_of_mem _ hc)]

/-- **Names that are written alike** mean the same members, or the same one of them is at fault. -/
theorem resolveAll_of_unplaced {lookup : Lookup} {kind : Kind} {paths paths' : List Path}
    (h : List.Forall₂ (fun p q => q.unplaced = p.unplaced) paths paths') :
    (∃ union, resolveAll lookup kind paths = .ok union ∧
      resolveAll lookup kind paths' = .ok union) ∨
    ∃ (k : Nat) (p q : Path) (cause : SemanticCause), paths[k]? = some p ∧ paths'[k]? = some q ∧
      resolveAll lookup kind paths = .error ⟨cause, p.range⟩ ∧
      resolveAll lookup kind paths' = .error ⟨cause, q.range⟩ := by
  suffices hgroups : (∃ groups, paths.mapM (resolve lookup kind) = .ok groups ∧
        paths'.mapM (resolve lookup kind) = .ok groups) ∨
      ∃ (k : Nat) (p q : Path) (cause : SemanticCause), paths[k]? = some p ∧ paths'[k]? = some q ∧
        paths.mapM (resolve lookup kind) = .error ⟨cause, p.range⟩ ∧
        paths'.mapM (resolve lookup kind) = .error ⟨cause, q.range⟩ by
    obtain ⟨groups, hp, hq⟩ | ⟨k, p, q, cause, hk, hk', hp, hq⟩ := hgroups
    · exact .inl ⟨unionOf groups, by rw [resolveAll, hp]; rfl, by rw [resolveAll, hq]; rfl⟩
    · exact .inr ⟨k, p, q, cause, hk, hk', by rw [resolveAll, hp]; rfl, by rw [resolveAll, hq]; rfl⟩
  induction h with
  | nil => exact .inl ⟨[], rfl, rfl⟩
  | @cons p q paths paths' hpq _ ih =>
    simp only [List.mapM_cons]
    obtain ⟨found, hp, hq⟩ | ⟨cause, hp, hq⟩ :=
      @Analysis.resolve_of_unplaced lookup kind _ _ hpq.symm
    · rw [hp, hq]
      obtain ⟨groups, hps, hqs⟩ | ⟨k, p', q', cause, hk, hk', hps, hqs⟩ := ih
      · exact .inl ⟨found :: groups, by rw [hps]; rfl, by rw [hqs]; rfl⟩
      · exact .inr ⟨k + 1, p', q', cause, hk, hk', by rw [hps]; rfl, by rw [hqs]; rfl⟩
    · exact .inr ⟨0, p, q, cause, rfl, rfl, by rw [hp]; rfl, by rw [hq]; rfl⟩

namespace Analysis

variable {lookup : Lookup} {options : CompilerOptions} {clock : Int}
  {present : List OrderKey} {item : Item} {kind : Kind} {mark : Mark} {paths : List Path}

/-- A phrase `field:predicate`, where the field is one of names of a kind. -/
structure IsElementField (kind : Kind) (predicate : Predicate) (phrase : Phrase) : Prop where
  subject : ∃ word, subjectWord? phrase = some word ∧
    AliasEntry.find? Kind.names word false = some kind
  relation : ∃ range, phrase.relation = some (.binary .equal predicate range)

/-- A phrase that is a name alone. -/
def IsName (path : Path) (phrase : Phrase) : Prop := phrase.subject = path ∧ phrase.relation = none

/-- A value that is a name with nothing before it. -/
def IsValue (path : Path) (v : Value) : Prop := v.isBare = true ∧ v.path = path

/-- The ways to write that an image has one of the entities of a kind that some paths mean. -/
inductive Spells (mark : Mark) (paths : List Path) : Item → Prop
  /-- `$a|b` -/
  | marked {exclude : Bool} {phrases : List Phrase} {r r' : Span}
    (h : List.Forall₂ IsName paths phrases) :
    Spells mark paths ⟨exclude, false, ⟨some mark, phrases, r⟩, r'⟩
  /-- `tag:{a,b}` -/
  | collection {exclude : Bool} {phrase : Phrase} {r r' : Span}
    (h : IsElementField (markKind mark) (.collection paths) phrase) :
    Spells mark paths ⟨exclude, false, ⟨none, [phrase], r⟩, r'⟩
  /-- `tag:a,b` -/
  | list {exclude : Bool} {phrase : Phrase} {values : List Value} {r r' : Span}
    (h : IsElementField (markKind mark) (.values values) phrase)
    (hvalues : List.Forall₂ IsValue paths values) :
    Spells mark paths ⟨exclude, false, ⟨none, [phrase], r⟩, r'⟩
  /-- `tag:a|tag:b` -/
  | fields {exclude : Bool} {phrases : List Phrase} {r r' : Span}
    (h : List.Forall₂ (fun path phrase =>
      ∃ v, IsValue path v ∧ IsElementField (markKind mark) (.values [v]) phrase) paths phrases) :
    Spells mark paths ⟨exclude, false, ⟨none, phrases, r⟩, r'⟩

/-! ## Marks -/

theorem markedPhrase_of_isName {bounds : RangeBounds} {path : Path} {phrase : Phrase}
    (htext : ∀ q ∈ path.parts, q.kind.isText = false) (h : IsName path phrase) :
    markedPhrase lookup bounds kind phrase = resolve lookup kind path := by
  obtain ⟨rfl, hrelation⟩ := h
  have htext : (phrase.subject.parts.any fun q => q.kind.isText) = false :=
    List.any_eq_false.mpr fun q hq => ne_true_of_eq_false (htext q hq)
  simp only [markedPhrase, hrelation, Option.filter_none, htext, Option.isSome_none,
    if_neg Bool.false_ne_true]

/-! ## Fields -/

/-- What is a name of a kind does not sort. -/
theorem not_isTyped_of_find? {word : String}
    (h : AliasEntry.find? Kind.names word false = some kind) :
    sortFieldName.isTyped word false = false := by
  rw [Bool.eq_false_iff]
  intro hsort
  have hword : word.toList.map Char.toLower = "order".toList.map Char.toLower :=
    (eq_of_beq (Bool.and_eq_true_iff.mp hsort).2).symm
  have hsame : ∀ a : Alias, a.isTyped word false = a.isTyped "order" false := fun a => by
    simp only [Alias.isTyped, Text.sameAscii, hword]
  have hnone : AliasEntry.find? Kind.names "order" false = none := by decide
  unfold AliasEntry.find? at h hnone
  simp only [hsame] at h
  rw [hnone] at h
  cases h

theorem classify_of_isElementField {predicate : Predicate} {phrase : Phrase}
    (h : IsElementField kind predicate phrase) :
    classify false phrase = .ok (.elementField kind) := by
  obtain ⟨word, hword, hkind⟩ := h.subject
  obtain ⟨range, hrelation⟩ := h.relation
  have hbinary : isBinary phrase = true := by rw [isBinary, hrelation]
  have hsaid : classifyWord phrase false word = .ok (some (.elementField kind)) := by
    simp only [classifyWord, not_isTyped_of_find? hkind, Bool.and_false, hbinary, if_true, hkind,
      if_neg Bool.false_ne_true]
  rw [classify, hword]
  simp only [hsaid]
  rfl

theorem elementFieldNames_collection {phrase : Phrase}
    (h : IsElementField kind (.collection paths) phrase) :
    elementFieldNames kind phrase = .ok paths := by
  obtain ⟨range, hrelation⟩ := h.relation
  rw [elementFieldNames, hrelation]
  exact if_neg (not_not.mpr rfl)

theorem elementFieldNames_values {phrase : Phrase} {values : List Value}
    (h : IsElementField kind (.values values) phrase)
    (hvalues : List.Forall₂ IsValue paths values) :
    elementFieldNames kind phrase = .ok paths := by
  obtain ⟨range, hrelation⟩ := h.relation
  rw [elementFieldNames, hrelation]
  refine (if_neg (not_not.mpr rfl)).trans ?_
  rw [← List.map_id paths]
  exact Understood.mapM_eq_ok hvalues fun path _ v hv => by rw [if_pos hv.1, hv.2]; rfl

/-- **An item of fields of one kind** looks up the names of all its fields. -/
theorem analyzeItem_of_elementFields {groups : List (List Path)} (hne : groups ≠ [])
    (hmark : item.element.mark = none) (hsource : item.source = false)
    (h : List.Forall₂ (fun group phrase => (∃ predicate, IsElementField kind predicate phrase) ∧
      elementFieldNames kind phrase = .ok group) groups item.element.phrases) :
    analyzeItem lookup options clock present item =
      ([], (resolveAll lookup kind groups.flatten).map fun union =>
        .element ⟨.of kind, item.exclude, union, item.range⟩) := by
  obtain ⟨group, rest, rfl⟩ := List.exists_cons_of_ne_nil hne
  have hclassify : item.element.phrases.mapM (classify item.source) =
      .ok (.elementField kind :: rest.map fun _ => .elementField kind) := by
    rw [hsource]
    refine Understood.mapM_eq_ok (h := fun _ => Subject.elementField kind) h ?_
    rintro _ _ phrase ⟨⟨predicate, hfield⟩, _⟩
    exact classify_of_isElementField hfield
  have hnames : item.element.phrases.mapM (elementFieldNames kind) = .ok (group :: rest) := by
    rw [← List.map_id (group :: rest)]
    exact Understood.mapM_eq_ok h fun _ _ _ hphrase => hphrase.2
  have hkinds : (rest.map fun _ => Subject.elementField kind).filterMap Subject.elementKind? =
      rest.map fun _ => kind := by
    rw [List.filterMap_map]
    exact congrFun (List.filterMap_eq_map (f := fun _ => kind)) rest
  rw [analyzeItem_of_subjects hmark hclassify (by simp)]
  refine congrArg (Prod.mk []) ?_
  rw [plainItem, if_pos (by simp [Subject.isField]), if_pos (by simp [Subject.isField])]
  simp only [fieldItem, List.filterMap_cons, Subject.elementKind?, hkinds]
  rw [if_neg (by simp), elementFieldItem, if_neg (by simp), hnames]
  cases hunion : resolveAll lookup kind (group :: rest).flatten with
  | ok union => simp only [Understood.ok_bind, hunion]; rfl
  | error fault => simp only [Understood.ok_bind, hunion]; rfl

/-! ## The forms -/

/-- **What an item in any of the forms adds**: the names are looked up one by one. -/
theorem analyzeItem_of_spells (hne : paths ≠ [])
    (htext : ∀ p ∈ paths, ∀ q ∈ p.parts, q.kind.isText = false) (h : Spells mark paths item) :
    analyzeItem lookup options clock present item =
      ([], (resolveAll lookup (markKind mark) paths).map fun union =>
        .element ⟨.of (markKind mark), item.exclude, union, item.range⟩) := by
  cases h with
  | @marked exclude phrases r r' h =>
    have hgroups : phrases.mapM (markedPhrase lookup options.rangeBounds (markKind mark)) =
        paths.mapM (resolve lookup (markKind mark)) :=
      Understood.mapM_eq_mapM h fun path hpath _ hname =>
        markedPhrase_of_isName (htext path hpath) hname
    simp only [analyzeItem, markedItem, hgroups, resolveAll, if_neg Bool.false_ne_true]
    cases paths.mapM (resolve lookup (markKind mark)) <;> rfl
  | @collection exclude phrase r r' h =>
    have hitem := @analyzeItem_of_elementFields lookup options clock present
      ⟨exclude, false, ⟨none, [phrase], r⟩, r'⟩ _ [paths] (List.cons_ne_nil _ _) rfl rfl
      (.cons ⟨⟨_, h⟩, elementFieldNames_collection h⟩ .nil)
    rwa [List.flatten_singleton] at hitem
  | @list exclude phrase values r r' h hvalues =>
    have hitem := @analyzeItem_of_elementFields lookup options clock present
      ⟨exclude, false, ⟨none, [phrase], r⟩, r'⟩ _ [paths] (List.cons_ne_nil _ _) rfl rfl
      (.cons ⟨⟨_, h⟩, elementFieldNames_values h hvalues⟩ .nil)
    rwa [List.flatten_singleton] at hitem
  | @fields exclude phrases r r' h =>
    have hitem := @analyzeItem_of_elementFields lookup options clock present
      ⟨exclude, false, ⟨none, phrases, r⟩, r'⟩ (markKind mark) (paths.map fun p => [p])
      (by simpa using hne) rfl rfl (by
        rw [List.forall₂_map_left_iff]
        refine h.imp fun path phrase hphrase => ?_
        obtain ⟨v, hv, hfield⟩ := hphrase
        exact ⟨⟨_, hfield⟩, elementFieldNames_values hfield (.cons hv .nil)⟩)
    rwa [← List.flatMap_def, List.flatMap_singleton'] at hitem

theorem not_isText_of_parts {p p' : Path}
    (h : p.parts.map Query.Part.unplaced = p'.parts.map Query.Part.unplaced)
    (htext : ∀ q ∈ p.parts, q.kind.isText = false) : ∀ q ∈ p'.parts, q.kind.isText = false := by
  intro q' hq'
  obtain ⟨q, hq, hsame⟩ := List.mem_map.mp (h ▸ List.mem_map_of_mem hq')
  exact (congrArg (fun r => r.kind.isText) hsame).symm.trans (htext q hq)

/-- **The forms say the same.** Two items that name paths that are written alike add a clause with
the same entities in the same order, or are at fault for the same cause at the same path. -/
theorem analyzeItem_spellings (lookup : Lookup) (options : CompilerOptions) (clock : Int)
    (present : List OrderKey) {mark : Mark} {paths paths' : List Path} {i i' : Item}
    (hne : paths ≠ []) (htext : ∀ p ∈ paths, ∀ q ∈ p.parts, q.kind.isText = false)
    (halike : paths'.map Path.unplaced = paths.map Path.unplaced) (h : Spells mark paths i)
    (h' : Spells mark paths' i') :
    (∃ union,
      analyzeItem lookup options clock present i =
        ([], .ok (.element ⟨.of (markKind mark), i.exclude, union, i.range⟩)) ∧
      analyzeItem lookup options clock present i' =
        ([], .ok (.element ⟨.of (markKind mark), i'.exclude, union, i'.range⟩))) ∨
    ∃ (k : Nat) (p p' : Path) (cause : SemanticCause), paths[k]? = some p ∧ paths'[k]? = some p' ∧
      analyzeItem lookup options clock present i = ([], .error ⟨cause, p.range⟩) ∧
      analyzeItem lookup options clock present i' = ([], .error ⟨cause, p'.range⟩) := by
  have hpaths : List.Forall₂ (fun p q => q.unplaced = p.unplaced) paths paths' :=
    Query.forall₂_of_map_eq halike
  have hne' : paths' ≠ [] := fun hnil => hne (List.map_eq_nil_iff.mp (by rw [← halike, hnil]; rfl))
  have htext' : ∀ p ∈ paths', ∀ q ∈ p.parts, q.kind.isText = false := by
    intro p' hp'
    obtain ⟨p, hp, hsame⟩ := List.mem_map.mp (halike ▸ List.mem_map_of_mem hp')
    exact not_isText_of_parts (Query.Path.parts_of_unplaced hsame) (htext p hp)
  rw [analyzeItem_of_spells hne htext h, analyzeItem_of_spells hne' htext' h']
  obtain ⟨union, hu, hu'⟩ | ⟨k, p, p', cause, hk, hk', hp, hp'⟩ :=
    @resolveAll_of_unplaced lookup (markKind mark) _ _ hpaths
  · exact .inl ⟨union, by rw [hu]; rfl, by rw [hu']; rfl⟩
  · exact .inr ⟨k, p, p', cause, hk, hk', by rw [hp]; rfl, by rw [hp']; rfl⟩

/-- The parts one and two of a series, as `$one|two` and as `tags:one,two`. -/
theorem analyzeItem_spellings_series :
    let name (word : String) (start : Nat) : Path :=
      ⟨⟨word, .word, .between start (start + 3)⟩, []⟩
    let marked : Item := ⟨true, false, ⟨some .tag, [⟨name "one" 1, none, .between 1 4⟩,
      ⟨name "two" 5, none, .between 5 8⟩], .between 0 8⟩, .between 0 8⟩
    let names : Predicate := .values [⟨none, false, name "one" 5, .between 5 8⟩,
      ⟨none, false, name "two" 9, .between 9 12⟩]
    let field : Phrase := ⟨⟨⟨"tags", .word, .between 0 4⟩, []⟩,
      some (.binary .equal names (.between 4 12)), .between 0 12⟩
    let list : Item := ⟨true, false, ⟨none, [field], .between 0 12⟩, .between 0 12⟩
    let outcome := fun i => analyzeItem Sequence.seriesSnapshot.lookup .default 2021 [] i
    ∃ union, outcome marked = ([], .ok (.element ⟨.of .tag, true, union, .between 0 8⟩)) ∧
      outcome list = ([], .ok (.element ⟨.of .tag, true, union, .between 0 12⟩)) := by
  intro name marked names field list outcome
  have hmarked : Spells .tag [name "one" 1, name "two" 5] marked :=
    .marked (.cons ⟨rfl, rfl⟩ (.cons ⟨rfl, rfl⟩ .nil))
  have hlist : Spells .tag [name "one" 5, name "two" 9] list :=
    .list ⟨⟨"tags", rfl, by decide⟩, _, rfl⟩ (.cons ⟨rfl, rfl⟩ (.cons ⟨rfl, rfl⟩ .nil))
  refine (analyzeItem_spellings Sequence.seriesSnapshot.lookup .default 2021 []
    (List.cons_ne_nil _ _)
    (by decide) (by rfl) hmarked hlist).resolve_right ?_
  rintro ⟨k, p, p', cause, -, -, herror, -⟩
  have hok : (outcome marked).2.isOk = true := by decide +kernel
  rw [show outcome marked = _ from herror] at hok
  cases hok

end Analysis

end PixQuery
