import PixQuery.Proofs.Meaning.Clauses
import PixQuery.Proofs.Plan.Items
import PixQuery.Proofs.Query.Reading

/-!
# What was written is understood again

A phrase that was read from the text of a plan is the phrase that was written, but for the ranges.
A phrase of a filter that fits its field is understood as that very filter if its values are
readable, and not at all if they are not.

Results:
* `Filtering.extent?_of_is`: a value is read back from the string that it is written as.
* `Filtering.means_of_unplaced`: the phrase of a filter means the filter.
-/

namespace PixQuery

open Query (Part Path Value Predicate Relation Family Phrase Element Item RangeLiteral Brackets)

/-! ## Strings that were read -/

namespace Query

theorem forall₂_of_map_eq {α β γ : Type} {f : α → γ} {g : β → γ} {as : List α} {bs : List β}
    (h : bs.map g = as.map f) : List.Forall₂ (fun a b => g b = f a) as bs := by
  have hmap : List.Forall₂ (· = ·) (as.map f) (bs.map g) := by rw [h, List.forall₂_eq_eq_eq]
  rw [List.forall₂_map_left_iff, List.forall₂_map_right_iff] at hmap
  exact hmap.imp fun _ _ hab => hab.symm

/-- The path is this string, wherever it stands. -/
def Path.Is (q : Part) (p : Path) : Prop := ∃ range, p = .ofPart ⟨q.value, q.kind, range⟩

theorem Path.is_of_unplaced {p : Path} {q : Part} (h : p.unplaced = (Path.ofPart q).unplaced) :
    p.Is q := by
  obtain ⟨⟨value, kind, range⟩, others⟩ := p
  simp only [Path.unplaced, Part.unplaced, Path.ofPart, List.map_nil, Path.mk.injEq, Part.mk.injEq,
    List.map_eq_nil_iff] at h
  obtain ⟨⟨rfl, rfl, _⟩, rfl⟩ := h
  exact ⟨range, rfl⟩

/-- The predicate names these paths, one alone or in a collection. -/
def Predicate.Names (paths : List Path) (p : Predicate) : Prop :=
  p = .collection paths ∨ ∃ path range, paths = [path] ∧ p = .values [⟨none, false, path, range⟩]

theorem Predicate.collection_of_unplaced {p : Predicate} {qs : List Part}
    (h : p.unplaced = (Predicate.collection (qs.map Path.ofPart)).unplaced) :
    ∃ paths, List.Forall₂ (fun q path => Path.Is q path) qs paths ∧ p = .collection paths := by
  cases p with
  | values vs => cases h
  | range r => cases h
  | collection paths =>
    rw [unplaced, unplaced, collection.injEq, List.map_map] at h
    exact ⟨paths, (forall₂_of_map_eq h).imp fun _ _ hp => Path.is_of_unplaced hp, rfl⟩

theorem Predicate.value_of_unplaced {p : Predicate} {q : Part}
    (h : p.unplaced = (predicateOf [q]).unplaced) :
    ∃ path range, path.Is q ∧ p = .values [⟨none, false, path, range⟩] := by
  cases p with
  | collection paths => cases h
  | range r => cases h
  | values vs =>
    have hvalues := Predicate.values.inj h
    obtain ⟨⟨direction, source, path, range⟩, rfl, hv⟩ := List.map_eq_singleton_iff.mp hvalues
    simp only [Value.unplaced, Value.ofPath, Value.mk.injEq] at hv
    obtain ⟨rfl, rfl, hpath, _⟩ := hv
    exact ⟨path, range, Path.is_of_unplaced hpath, rfl⟩

theorem Predicate.names_of_unplaced {p : Predicate} {qs : List Part}
    (h : p.unplaced = (predicateOf qs).unplaced) :
    ∃ paths, List.Forall₂ (fun q path => Path.Is q path) qs paths ∧ p.Names paths := by
  match qs with
  | [] =>
    obtain ⟨paths, hpaths, hp⟩ := collection_of_unplaced h
    exact ⟨paths, hpaths, .inl hp⟩
  | [q] =>
    obtain ⟨path, range, hpath, hp⟩ := value_of_unplaced h
    exact ⟨[path], .cons hpath .nil, .inr ⟨path, range, rfl, hp⟩⟩
  | _ :: _ :: _ =>
    obtain ⟨paths, hpaths, hp⟩ := collection_of_unplaced h
    exact ⟨paths, hpaths, .inl hp⟩

theorem Path.joined_ofPart (q : Part) : (Path.ofPart q).joined = q.value := rfl

end Query

namespace Filtering

variable {field : Field} {v : FilterValue} {path : Path} {year : Int}

/-! ## Literals -/

/-- A value of a comparable type is shown, and is no pattern. -/
theorem value_part (hc : field.type.isComparable = true) (hf : v.Fits field.type) :
    (v.part field).value = v.shown ∧ Value.isPattern v.shown = false := by
  cases v with
  | number n => exact ⟨rfl, Value.isPattern_shown_number n⟩
  | size n => exact ⟨rfl, Value.isPattern_shown_size n⟩
  | date d => exact ⟨rfl, Value.isPattern_text d⟩
  | text s => rcases hf with hf | hf <;> rw [hf] at hc <;> cases hc

/-- **A value is read back** from the string that it is written as. -/
theorem extent?_of_is (hc : field.type.isComparable = true) (hf : v.Fits field.type)
    (hr : v.IsReadable) (hp : path.Is (v.part field)) :
    extent? year field.type path = .ok (some (.one v)) := by
  obtain ⟨range, rfl⟩ := hp
  cases v with
  | number n =>
    have hnumber : ∀ range, Value.number (FilterValue.number n).shown range = .ok n := by
      intro range
      rw [Value.number, Value.number?_shown]
      rfl
    rcases hf with hf | hf
    · rw [hf]
      show (Value.number (FilterValue.number n).shown _ >>= fun n =>
        Except.ok (some (Extent.one (FilterValue.number n)))) = _
      rw [hnumber]
      rfl
    · rw [hf]
      show (Value.patternNumber (FilterValue.number n).shown _ >>= _) = _
      rw [Value.patternNumber_shown]
      rfl
  | size n =>
    obtain ⟨hf, amount, unit, hbytes⟩ := hf
    rw [hf]
    show (Value.size (FilterValue.size n).shown _ >>= fun n =>
      Except.ok (some (Extent.one (FilterValue.size n)))) = _
    rw [Value.size, Value.size?_shown hbytes]
    rfl
  | date d =>
    have hdate : ∀ range, Value.date year (FilterValue.date d).shown range = .ok (.one d) :=
      fun range => (Value.date_text d year range).trans (if_pos hr)
    rcases hf with hf | hf <;> rw [hf]
    all_goals
      show (Value.date year (FilterValue.date d).shown _ >>= fun d =>
        Except.ok (some (Extent.map FilterValue.date d))) = _
      rw [hdate]
      rfl
  | text s => rcases hf with hf | hf <;> rw [hf] at hc <;> cases hc

/-- What is understood at all is readable. -/
theorem isReadable_of_extent? (hf : v.Fits field.type) (hp : path.Is (v.part field))
    {e : Option (Extent FilterValue)} (h : extent? year field.type path = .ok e) :
    v.IsReadable := by
  obtain ⟨range, rfl⟩ := hp
  cases v with
  | number n => trivial
  | size n => trivial
  | text s => trivial
  | date d =>
    have hread : ∀ {range e}, Value.date year d.text range = .ok e → 0 ≤ d.year := by
      intro range e hdate
      by_contra hneg
      rw [Value.date_text, if_neg hneg] at hdate
      cases hdate
    rcases hf with hf | hf <;> rw [hf] at h
    all_goals
      obtain ⟨d', hd', _⟩ := Understood.exists_of_bind h
      exact hread hd'

theorem comparable_of_is (hc : field.type.isComparable = true) (hf : v.Fits field.type)
    (hr : v.IsReadable) (hp : path.Is (v.part field)) :
    comparable year field.type path = .ok (.one v) := by
  have hextent := @extent?_of_is field v path year hc hf hr hp
  obtain ⟨hvalue, hpattern⟩ := value_part hc hf
  have hjoined : Value.isPattern path.joined = false := by
    obtain ⟨range, rfl⟩ := hp
    rw [Path.joined_ofPart, hvalue, hpattern]
  rw [comparable, hjoined, if_neg Bool.false_ne_true, hextent]
  rfl

theorem isReadable_of_comparable (hf : v.Fits field.type) (hp : path.Is (v.part field))
    {e : Extent FilterValue} (h : comparable year field.type path = .ok e) : v.IsReadable := by
  unfold comparable at h
  split at h
  · cases h
  · obtain ⟨e', he', _⟩ := Understood.exists_of_bind h
    exact isReadable_of_extent? hf hp he'

/-! ## Equality -/

/-- Equality on a comparable field. -/
theorem equal_of_isComparable (hc : field.type.isComparable = true) {paths : List Path}
    (hne : paths ≠ []) : equal year field paths =
      (do return gather field (← paths.mapM (comparablePortion year field.type))) := by
  obtain ⟨path, paths, rfl⟩ := List.exists_cons_of_ne_nil hne
  unfold equal
  cases htype : field.type <;> first | rfl | (rw [htype] at hc; cases hc)

theorem gather_values (field : Field) {values : List FilterValue} (hne : values ≠ []) :
    gather field (values.map Portion.value) = [.equal field values] := by
  have hvalues : (values.map Portion.value).filterMap Portion.value? = values := by
    rw [List.filterMap_map]
    exact List.filterMap_some
  have hpatterns : (values.map Portion.value).filterMap Portion.pattern? = [] := by
    rw [List.filterMap_map]
    exact List.filterMap_eq_nil_iff.mpr fun _ _ => rfl
  have hspans : (values.map Portion.value).filterMap (Portion.span? field) = [] := by
    rw [List.filterMap_map]
    exact List.filterMap_eq_nil_iff.mpr fun _ _ => rfl
  rw [gather, hvalues, hpatterns, hspans, equalFilter, if_neg (mt List.isEmpty_iff.mp hne)]
  rfl

theorem gather_patterns (field : Field) {patterns : List String} (hne : patterns ≠ []) :
    gather field (patterns.map Portion.pattern) = [.similar field patterns] := by
  have hvalues : (patterns.map Portion.pattern).filterMap Portion.value? = [] := by
    rw [List.filterMap_map]
    exact List.filterMap_eq_nil_iff.mpr fun _ _ => rfl
  have hpatterns : (patterns.map Portion.pattern).filterMap Portion.pattern? = patterns := by
    rw [List.filterMap_map]
    exact List.filterMap_some
  have hspans : (patterns.map Portion.pattern).filterMap (Portion.span? field) = [] := by
    rw [List.filterMap_map]
    exact List.filterMap_eq_nil_iff.mpr fun _ _ => rfl
  rw [gather, hvalues, hpatterns, hspans, similarFilter, if_neg (mt List.isEmpty_iff.mp hne)]
  rfl

theorem ne_nil_of_forall₂ {α β : Type} {R : α → β → Prop} {as : List α} {bs : List β}
    (h : List.Forall₂ R as bs) (hne : as ≠ []) : bs ≠ [] := by
  rintro rfl
  exact hne (List.forall₂_nil_right_iff.mp h)

/-- The values of a filter of equality. -/
theorem equal_of_is {values : List FilterValue} (hne : values ≠ [])
    (hf : ∀ v ∈ values, v.Fits field.type) (hr : ∀ v ∈ values, v.IsReadable) {paths : List Path}
    (hp : List.Forall₂ (fun v path => Path.Is (v.part field) path) values paths) :
    equal year field paths = .ok [.equal field values] := by
  have hpaths := ne_nil_of_forall₂ hp hne
  by_cases hc : field.type.isComparable = true
  · have hportions : paths.mapM (comparablePortion year field.type) = .ok (values.map .value) :=
      Understood.mapM_eq_ok hp fun v hv path hpath => by
        rw [comparablePortion, extent?_of_is hc (hf v hv) (hr v hv) hpath]
        rfl
    rw [equal_of_isComparable hc hpaths, hportions, Understood.ok_bind, gather_values field hne]
    rfl
  · -- a value of another type is a text
    have htext : ∀ v ∈ values, ∃ s, v = .text s := by
      intro v hv
      have hfit := hf v hv
      cases v with
      | text s => exact ⟨s, rfl⟩
      | number n => rcases hfit with hfit | hfit <;> exact absurd (by rw [hfit]; rfl) hc
      | size n => exact absurd (by rw [hfit.1]; rfl) hc
      | date d => rcases hfit with hfit | hfit <;> exact absurd (by rw [hfit]; rfl) hc
    obtain ⟨path, rest, rfl⟩ := List.exists_cons_of_ne_nil hpaths
    obtain ⟨v, hv⟩ := List.exists_mem_of_ne_nil values hne
    obtain ⟨s, rfl⟩ := htext v hv
    rcases hf _ hv with htype | htype
    · have hvalues : (path :: rest).mapM (fun p => do return .text (← scalar p)) =
          (.ok (values.map id) : Understood (List FilterValue)) :=
        Understood.mapM_eq_ok hp fun w hw p hpath => by
          obtain ⟨range, rfl⟩ := hpath
          obtain ⟨t, rfl⟩ := htext w hw
          rw [FilterValue.part, if_neg (by rw [htype]; decide)]
          rfl
      unfold equal
      rw [htype]
      show (_ >>= _) = _
      rw [hvalues, List.map_id]
      rfl
    · have hportions : (path :: rest).mapM textPortion = .ok (values.map .value) :=
        Understood.mapM_eq_ok hp fun w hw p hpath => by
          obtain ⟨range, rfl⟩ := hpath
          obtain ⟨t, rfl⟩ := htext w hw
          rw [FilterValue.part, if_pos htype]
          rfl
      unfold equal
      rw [htype]
      show (_ >>= _) = _
      rw [hportions, Understood.ok_bind, gather_values field hne]
      rfl

/-- Patterns of digits. -/
theorem equal_of_patterns {patterns : List String} (hne : patterns ≠ [])
    (htype : field.type = .patternNumber)
    (hf : ∀ p ∈ patterns, ∀ range, Value.patternNumber p range = .ok (.pattern p))
    {paths : List Path}
    (hp : List.Forall₂ (fun p path => Path.Is (typedPart .apostrophe p) path) patterns paths) :
    equal year field paths = .ok [.similar field patterns] := by
  have hpaths := ne_nil_of_forall₂ hp hne
  have hportions : paths.mapM (comparablePortion year field.type) = .ok (patterns.map .pattern) :=
    Understood.mapM_eq_ok hp fun p hmem path hpath => by
      obtain ⟨range, rfl⟩ := hpath
      rw [comparablePortion, htype]
      show ((Value.patternNumber p _ >>= _) >>= _) = _
      rw [hf p hmem]
      rfl
  rw [equal_of_isComparable (by rw [htype]; rfl) hpaths, hportions, Understood.ok_bind,
    gather_patterns field hne]
  rfl

theorem flagOf_of_is {name : String} {flag : Tagme} (hp : path.Is (quotedPart .word name))
    (h : Flags.ofTypedName? name = some flag) : flagOf path = .ok flag := by
  obtain ⟨range, rfl⟩ := hp
  show Value.tagme name _ = _
  rw [Value.tagme, h]

/-- The names of flags. -/
theorem equal_of_flags {value : Tagme} (htype : field.type = .composition)
    (hf : Flags.IsKnown value) {paths : List Path}
    (hp : List.Forall₂ (fun name path => Path.Is (quotedPart .word name) path)
      (Flags.typedNames value) paths) :
    equal year field paths = .ok [.composition field value] := by
  obtain ⟨hne, hnames⟩ := Flags.unionAll_typedNames hf
  obtain ⟨flags, hflags, rfl⟩ := Option.map_eq_some_iff.mp hnames
  have hread : ∀ {names : List String} {paths : List Path} {flags : List Tagme},
      List.Forall₂ (fun name path => Path.Is (quotedPart .word name) path) names paths →
      names.mapM (fun name => (Flags.ofTypedName? name : Option Tagme)) = some flags →
        paths.mapM flagOf = .ok flags := by
    intro names paths flags hp
    induction hp generalizing flags with
    | nil =>
      intro h
      obtain rfl := Option.some.inj h
      rfl
    | cons hpath _ ih =>
      intro h
      rw [List.mapM_cons] at h
      obtain ⟨flag, hflag, h⟩ := Option.bind_eq_some_iff.mp h
      obtain ⟨rest, hrest, h⟩ := Option.bind_eq_some_iff.mp h
      obtain rfl := Option.some.inj h
      rw [List.mapM_cons, flagOf_of_is hpath hflag, Understood.ok_bind, ih hrest]
      rfl
  have hpaths := ne_nil_of_forall₂ hp hne
  obtain ⟨path, rest, rfl⟩ := List.exists_cons_of_ne_nil hpaths
  unfold equal
  rw [htype]
  show (_ >>= _) = _
  rw [hread hp hflags]
  rfl

/-! ## Phrases -/

/-- A relation that was read from one that was written. -/
theorem exists_binary {r : Option Relation} {family : Family} {predicate : Predicate} {range : Span}
    (h : r.map Relation.unplaced =
      (some (Relation.binary family predicate range)).map Relation.unplaced) :
    ∃ predicate' range', r = some (.binary family predicate' range') ∧
      predicate'.unplaced = predicate.unplaced := by
  obtain ⟨r', rfl, hr⟩ := Option.map_eq_some_iff.mp h
  cases r' with
  | unary d range' => cases hr
  | binary family' predicate' range' =>
    simp only [Relation.unplaced, Relation.binary.injEq] at hr
    exact ⟨predicate', range', by rw [hr.1], hr.2.1⟩

variable {bounds : RangeBounds} {phrase : Phrase} {predicate : Predicate} {range : Span}

theorem filters_of_binary {family : Family} (hne : field.type ≠ .flag)
    (h : phrase.relation = some (.binary family predicate range)) :
    filters year bounds field phrase = binary year bounds field family predicate range := by
  rw [filters, h]
  exact if_neg hne

/-- Equality with one string or a collection. -/
theorem binary_of_names {paths : List Path} (h : predicate.Names paths) :
    binary year bounds field .equal predicate range = equal year field paths := by
  rcases h with rfl | ⟨path, r, rfl, rfl⟩ <;> rfl

/-- Similarity to one string or a collection. -/
theorem binary_of_patterns {patterns : List String} (hne : patterns ≠ [])
    (htype : field.type = .patternString) {paths : List Path} (h : predicate.Names paths)
    (hp : List.Forall₂ (fun p path => Path.Is (typedPart .apostrophe p) path) patterns paths) :
    binary year bounds field .similar predicate range = .ok [.similar field patterns] := by
  have hscalars : paths.mapM scalar = .ok (patterns.map id) :=
    Understood.mapM_eq_ok hp fun p _ path hpath => by
      obtain ⟨r, rfl⟩ := hpath
      rfl
  rw [List.map_id] at hscalars
  have hpatterns : Filtering.patterns field .similar range predicate = .ok patterns := by
    rcases h with rfl | ⟨path, r, rfl, rfl⟩
    · exact hscalars
    · rw [← hscalars, List.mapM_cons]
      rfl
  have hlist : Sequence.shapeOf predicate ≠ .list := by
    rcases h with rfl | ⟨path, r, rfl, rfl⟩ <;> exact fun hlist => by cases hlist
  simp only [binary, if_neg hlist]
  rw [if_pos (by rw [htype]; rfl), hpatterns, Understood.ok_bind, similarFilter,
    if_neg (mt List.isEmpty_iff.mp hne)]
  rfl

theorem ne_flag_of_fits {type : FieldType} (h : v.Fits type) : type ≠ .flag := by
  rintro rfl
  cases v <;> simp [FilterValue.Fits] at h

theorem ne_flag_of_isComparable {type : FieldType} (h : type.isComparable = true) :
    type ≠ .flag := by
  rintro rfl
  cases h

/-- A range that was read from one that was written. -/
theorem exists_range {first last : Part} {b : Brackets}
    (h : predicate.unplaced = (Predicate.range ⟨.ofPart first, .ofPart last, some b⟩).unplaced) :
    ∃ path other, path.Is first ∧ other.Is last ∧ predicate = .range ⟨path, other, some b⟩ := by
  cases predicate with
  | values vs => cases h
  | collection paths => cases h
  | range r =>
    obtain ⟨path, other, brackets⟩ := r
    simp only [Predicate.unplaced, RangeLiteral.unplaced, Predicate.range.injEq,
      RangeLiteral.mk.injEq] at h
    obtain ⟨hpath, hother, rfl⟩ := h
    exact ⟨path, other, Path.is_of_unplaced hpath, Path.is_of_unplaced hother, rfl⟩

/-- A comparison with one value. -/
theorem binary_of_comparison {family : Family} (hfamily : family.isComparison = true)
    (hc : field.type.isComparable = true) {r : Span} :
    binary year bounds field family (.values [⟨none, false, path, r⟩]) range =
      (do return [comparisonFilter field family (← comparable year field.type path)]) := by
  cases family with
  | equal => cases hfamily
  | similar => cases hfamily
  | gt => exact if_pos hc
  | gte => exact if_pos hc
  | lt => exact if_pos hc
  | lte => exact if_pos hc

theorem binary_of_range {literal : RangeLiteral} (hc : field.type.isComparable = true) :
    binary year bounds field .equal (.range literal) range =
      (do return [← rangeFilter year bounds field literal]) := if_pos hc

/-- A phrase is understood as a filter if that is readable, and not at all if it is not. -/
def Means (year : Int) (bounds : RangeBounds) (phrase : Phrase) (f : Filter) : Prop :=
  (f.IsReadable → filters year bounds f.field phrase = .ok [f]) ∧
    ∀ fs, filters year bounds f.field phrase = .ok fs → f.IsReadable

theorem means_equal {values : List FilterValue} (hne : values ≠ [])
    (hvalues : ∀ v ∈ values, v.Fits field.type)
    (h : phrase.relation.map Relation.unplaced =
      (Filter.equal field values).relation.map Relation.unplaced) :
    Means year bounds phrase (.equal field values) := by
  obtain ⟨predicate, range, hrelation, hpredicate⟩ := exists_binary h
  obtain ⟨paths, hpaths, hnames⟩ := Predicate.names_of_unplaced hpredicate
  rw [List.forall₂_map_left_iff] at hpaths
  obtain ⟨v, hv⟩ := List.exists_mem_of_ne_nil values hne
  rw [Means, Filter.field, filters_of_binary (ne_flag_of_fits (hvalues v hv)) hrelation,
    binary_of_names hnames]
  refine ⟨fun hr => equal_of_is hne hvalues hr hpaths, fun fs hfs w hw => ?_⟩
  by_cases hc : field.type.isComparable = true
  · rw [equal_of_isComparable hc (ne_nil_of_forall₂ hpaths hne)] at hfs
    obtain ⟨portions, hportions, _⟩ := Understood.exists_of_bind hfs
    obtain ⟨path, hpath, q, hq⟩ := Understood.exists_of_mapM_eq_ok hpaths hportions w hw
    obtain ⟨e, he, _⟩ := Understood.exists_of_bind hq
    exact isReadable_of_extent? (hvalues w hw) hpath he
  · have hfit := hvalues w hw
    cases w with
    | date d => rcases hfit with hfit | hfit <;> exact absurd (by rw [hfit]; rfl) hc
    | number n => trivial
    | size n => trivial
    | text t => trivial

theorem means_similar {patterns : List String} (hne : patterns ≠ [])
    (hpatterns : ∀ p ∈ patterns, field.type.HasPattern p)
    (h : phrase.relation.map Relation.unplaced =
      (Filter.similar field patterns).relation.map Relation.unplaced) :
    Means year bounds phrase (.similar field patterns) := by
  obtain ⟨predicate, range, hrelation, hpredicate⟩ := exists_binary h
  obtain ⟨paths, hpaths, hnames⟩ := Predicate.names_of_unplaced hpredicate
  rw [List.forall₂_map_left_iff] at hpaths
  refine ⟨fun _ => ?_, fun _ _ w hw => by cases hw⟩
  by_cases htype : field.type = .patternString
  · rw [htype, FieldType.isMatchable, if_pos rfl] at hrelation
    rw [Filter.field, filters_of_binary (by rw [htype]; decide) hrelation]
    exact binary_of_patterns hne htype hnames hpaths
  · obtain ⟨p, hp⟩ := List.exists_mem_of_ne_nil patterns hne
    have hnumber := ((hpatterns p hp).resolve_left htype).1
    rw [hnumber, FieldType.isMatchable, if_neg Bool.false_ne_true] at hrelation
    rw [Filter.field, filters_of_binary (by rw [hnumber]; decide) hrelation, binary_of_names hnames]
    exact equal_of_patterns hne hnumber (fun q hq => ((hpatterns q hq).resolve_left htype).2) hpaths

theorem means_between {b e : Bound} (hc : field.type.isComparable = true)
    (hb : b.value.Fits field.type) (he : e.value.Fits field.type)
    (h : phrase.relation.map Relation.unplaced =
      (Filter.range field (some b) (some e)).relation.map Relation.unplaced) :
    Means year bounds phrase (.range field (some b) (some e)) := by
  obtain ⟨predicate, range, hrelation, hpredicate⟩ := exists_binary h
  obtain ⟨path, other, hpath, hother, rfl⟩ := exists_range hpredicate
  rw [Means, Filter.field, filters_of_binary (ne_flag_of_isComparable hc) hrelation,
    binary_of_range hc, rangeFilter]
  refine ⟨fun hr => ?_, fun fs hfs w hw => ?_⟩
  · rw [comparable_of_is hc hb (hr _ List.mem_cons_self) hpath, Understood.ok_bind,
      comparable_of_is hc he (hr _ (List.mem_cons_of_mem _ List.mem_cons_self)) hother]
    rfl
  · obtain ⟨f, hf, _⟩ := Understood.exists_of_bind hfs
    obtain ⟨x, hx, hf⟩ := Understood.exists_of_bind hf
    obtain ⟨y, hy, _⟩ := Understood.exists_of_bind hf
    rcases List.mem_cons.mp hw with rfl | hw
    · exact isReadable_of_comparable hb hpath hx
    · obtain rfl := List.mem_singleton.mp hw
      exact isReadable_of_comparable he hother hy

/-- A filter with one bound, which is written as a comparison. -/
theorem means_comparison {family : Family} {b : Bound} {f : Filter} (hfield : f.field = field)
    (hc : field.type.isComparable = true) (hb : b.value.Fits field.type)
    (hfamily : family.isComparison = true) (hvalues : f.values = [b.value])
    (hcomparison : comparisonFilter field family (.one b.value) = f)
    (h : phrase.relation.map Relation.unplaced =
      (some (Relation.binary family (predicateOf [b.value.part field]) (.point 0))).map
        Relation.unplaced) : Means year bounds phrase f := by
  obtain ⟨predicate, range, hrelation, hpredicate⟩ := exists_binary h
  obtain ⟨path, r, hpath, rfl⟩ := Predicate.value_of_unplaced hpredicate
  rw [Means, Filter.IsReadable, hvalues, hfield,
    filters_of_binary (ne_flag_of_isComparable hc) hrelation, binary_of_comparison hfamily hc]
  refine ⟨fun hr => ?_, fun fs hfs w hw => ?_⟩
  · rw [comparable_of_is hc hb (hr _ List.mem_cons_self) hpath, ← hcomparison]
    rfl
  · obtain ⟨x, hx, _⟩ := Understood.exists_of_bind hfs
    obtain rfl := List.mem_singleton.mp hw
    exact isReadable_of_comparable hb hpath hx

theorem means_range {lower upper : Option Bound} (hc : field.type.isComparable = true)
    (hsome : lower.isSome ∨ upper.isSome)
    (hvalues : ∀ v ∈ (Filter.range field lower upper).values, v.Fits field.type)
    (h : phrase.relation.map Relation.unplaced =
      (Filter.range field lower upper).relation.map Relation.unplaced) :
    Means year bounds phrase (.range field lower upper) := by
  match lower, upper, hsome with
  | some b, some e, _ =>
    exact means_between hc (hvalues b.value List.mem_cons_self)
      (hvalues e.value (List.mem_cons_of_mem _ List.mem_cons_self)) h
  | some ⟨value, true⟩, none, _ =>
    exact means_comparison (b := ⟨value, true⟩) rfl hc
      (hvalues value List.mem_cons_self) rfl rfl rfl h
  | some ⟨value, false⟩, none, _ =>
    exact means_comparison (b := ⟨value, false⟩) rfl hc
      (hvalues value List.mem_cons_self) rfl rfl rfl h
  | none, some ⟨value, true⟩, _ =>
    exact means_comparison (b := ⟨value, true⟩) rfl hc
      (hvalues value List.mem_cons_self) rfl rfl rfl h
  | none, some ⟨value, false⟩, _ =>
    exact means_comparison (b := ⟨value, false⟩) rfl hc
      (hvalues value List.mem_cons_self) rfl rfl rfl h

theorem means_flag (htype : field.type = .flag ∨ field.type = .composition)
    (h : phrase.relation.map Relation.unplaced =
      (Filter.flag field).relation.map Relation.unplaced) :
    Means year bounds phrase (.flag field) := by
  have hrelation : phrase.relation = none := Option.map_eq_none_iff.mp h
  refine ⟨fun _ => ?_, fun _ _ w hw => by cases hw⟩
  rw [Filter.field, filters, hrelation]
  rcases htype with htype | htype <;> simp only [htype]

theorem means_composition {value : Tagme} (htype : field.type = .composition)
    (hknown : Flags.IsKnown value)
    (h : phrase.relation.map Relation.unplaced =
      (Filter.composition field value).relation.map Relation.unplaced) :
    Means year bounds phrase (.composition field value) := by
  obtain ⟨predicate, range, hrelation, hpredicate⟩ := exists_binary h
  have hnames : predicate.unplaced = (Predicate.collection
      (((Flags.typedNames value).map (quotedPart .word)).map Path.ofPart)).unplaced := by
    rw [hpredicate, Flags.typedNames, List.map_map, List.map_map]
    rfl
  obtain ⟨paths, hpaths, rfl⟩ := Predicate.collection_of_unplaced hnames
  rw [List.forall₂_map_left_iff] at hpaths
  refine ⟨fun _ => ?_, fun _ _ w hw => by cases hw⟩
  rw [Filter.field, filters_of_binary (by rw [htype]; decide) hrelation, binary_of_names (.inl rfl)]
  exact equal_of_flags htype hknown hpaths

/-- **The phrase of a filter that fits its field** means the filter. -/
theorem means_of_unplaced {f : Filter} (hf : f.Fits)
    (h : phrase.relation.map Relation.unplaced = f.relation.map Relation.unplaced) :
    Means year bounds phrase f := by
  obtain ⟨hvalues, hallowed⟩ := hf
  cases f with
  | equal field values => exact means_equal hallowed hvalues h
  | similar field patterns => exact means_similar hallowed.1 hallowed.2 h
  | range field lower upper => exact means_range hallowed.1 hallowed.2 hvalues h
  | flag field => exact means_flag hallowed h
  | composition field value => exact means_composition hallowed.1 hallowed.2 h

end Filtering

end PixQuery
