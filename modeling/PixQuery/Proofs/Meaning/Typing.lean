import PixQuery.Meaning.Filtering
import PixQuery.Proofs.Meaning.Understood
import PixQuery.Proofs.Value.Days

/-!
# Filters fit the types of their fields

A filter holds values of any kind. Those that a phrase is understood as hold values of the type of
the field that the phrase is about, and have a shape that this type allows.

Results:
* `Filtering.answers_filters`: the filters of a phrase speak of its field, fit its type, and name no
  date before the year zero unless the current year lies before it.
-/

namespace PixQuery

open Query (Path Value Predicate Phrase Relation Family RangeLiteral)

namespace Understood

theorem eq_some_of_orCastFault {α : Type} {text expected : String} {range : Span} {x : Option α}
    {a : α} (h : Value.orCastFault text expected range x = .ok a) : x = some a := by
  cases x with
  | none => cases h
  | some b => exact congrArg some (Except.ok.inj h)

end Understood

/-! ## What fits a field -/

/-- A value is of a type. Sizes have been computed from an amount of some unit. -/
def FilterValue.Fits (type : FieldType) : FilterValue → Prop
  | number _ => type = .number ∨ type = .patternNumber
  | size n => type = .size ∧ ∃ amount unit, Value.bytes? amount unit = some n
  | date _ => type = .date ∨ type = .dateTime
  | text _ => type = .string ∨ type = .patternString

/-- A value is read back from what it is shown as. -/
def FilterValue.IsReadable : FilterValue → Prop
  | date d => 0 ≤ d.year
  | number _ | size _ | text _ => True

/-- A text is a pattern of a type. Among texts of digits only some are. -/
def FieldType.HasPattern (type : FieldType) (pattern : String) : Prop :=
  type = .patternString ∨
    type = .patternNumber ∧ ∀ range, Value.patternNumber pattern range = .ok (.pattern pattern)

namespace Filter

/-- The values that a filter compares with. -/
def values : Filter → List FilterValue
  | equal _ values => values
  | range _ lower upper => (lower.toList ++ upper.toList).map Bound.value
  | similar .. | flag _ | composition .. => []

/-- The type of the field allows the form of the filter, and nothing in it is empty. -/
def IsAllowed : Filter → Prop
  | equal _ values => values ≠ []
  | similar field patterns => patterns ≠ [] ∧ ∀ p ∈ patterns, field.type.HasPattern p
  | range field lower upper => field.type.isComparable = true ∧ (lower.isSome ∨ upper.isSome)
  | flag field => field.type = .flag ∨ field.type = .composition
  | composition field value => field.type = .composition ∧ Flags.IsKnown value

/-- The filter fits the type of its field. -/
structure Fits (f : Filter) : Prop where
  values : ∀ v ∈ f.values, v.Fits f.field.type
  allowed : f.IsAllowed

/-- All values of the filter are read back from what they are shown as. -/
def IsReadable (f : Filter) : Prop := ∀ v ∈ f.values, v.IsReadable

end Filter

namespace Filtering

/-! ## Literals -/

/-- A value that a literal of a type may stand for in some year. -/
def Suits (year : Int) (type : FieldType) (v : FilterValue) : Prop :=
  v.Fits type ∧ (0 ≤ year → v.IsReadable)

theorem suits_number (year : Int) (n : Int64) : Suits year .number (.number n) :=
  ⟨.inl rfl, fun _ => trivial⟩

theorem suits_patternNumber (year : Int) (n : Int64) : Suits year .patternNumber (.number n) :=
  ⟨.inr rfl, fun _ => trivial⟩

theorem all_map {α β : Type} {P : β → Prop} {f : α → β} {e : Extent α}
    (h : e.All fun a => P (f a)) :
    (Extent.map f e).All P := by
  cases e with
  | one a => exact h
  | span a b => exact h

theorem all_of_forall {α : Type} {P : α → Prop} (h : ∀ a, P a) (e : Extent α) : e.All P := by
  cases e with
  | one a => exact h a
  | span a b => exact ⟨h a, h b⟩

theorem suits_date {year : Int} {type : FieldType} {text : String} {range : Span}
    {e : Extent Date} (htype : type = .date ∨ type = .dateTime)
    (h : Value.date year text range = .ok e) :
      (Extent.map FilterValue.date e).All (Suits year type) := by
  have hdate := Understood.eq_some_of_orCastFault h
  refine all_map ?_
  cases e with
  | one d => exact ⟨htype, fun hyear => Value.all_date? hyear hdate⟩
  | span a b =>
    exact ⟨⟨htype, fun hyear => (Value.all_date? hyear hdate).1⟩, htype, fun hyear =>
      (Value.all_date? hyear hdate).2⟩

/-- **What a literal stands for** is of the type it is read with. -/
theorem all_extent? {year : Int} {type : FieldType} {path : Path} {e : Extent FilterValue}
    (htype : type.isComparable = true) (h : extent? year type path = .ok (some e)) :
    e.All (Suits year type) := by
  cases type with
  | flag => cases htype
  | string => cases htype
  | patternString => cases htype
  | composition => cases htype
  | number =>
    obtain ⟨text, _, h⟩ := Understood.exists_of_bind h
    obtain ⟨n, _, h⟩ := Understood.exists_of_bind h
    obtain rfl := Option.some.inj (Except.ok.inj h)
    exact suits_number year n
  | patternNumber =>
    obtain ⟨text, _, h⟩ := Understood.exists_of_bind h
    obtain ⟨n, _, h⟩ := Understood.exists_of_bind h
    cases n with
    | pattern p => cases h
    | extent n =>
      obtain rfl := Option.some.inj (Except.ok.inj h)
      exact all_map (all_of_forall (suits_patternNumber year) n)
  | size =>
    obtain ⟨n, hn, h⟩ := Understood.exists_of_bind h
    obtain rfl := Option.some.inj (Except.ok.inj h)
    have hsize := Understood.eq_some_of_orCastFault hn
    obtain ⟨unit, _, hsize⟩ := Option.bind_eq_some_iff.mp hsize
    obtain ⟨amount, _, hsize⟩ := Option.bind_eq_some_iff.mp hsize
    exact ⟨⟨rfl, amount, unit, hsize⟩, fun _ => trivial⟩
  | date =>
    obtain ⟨d, hd, h⟩ := Understood.exists_of_bind h
    obtain rfl := Option.some.inj (Except.ok.inj h)
    exact suits_date (.inl rfl) hd
  | dateTime =>
    obtain ⟨d, hd, h⟩ := Understood.exists_of_bind h
    obtain rfl := Option.some.inj (Except.ok.inj h)
    exact suits_date (.inr rfl) hd

theorem all_comparable {year : Int} {type : FieldType} {path : Path} {e : Extent FilterValue}
    (htype : type.isComparable = true) (h : comparable year type path = .ok e) :
    e.All (Suits year type) := by
  unfold comparable at h
  split at h
  · cases h
  · obtain ⟨found, hfound, h⟩ := Understood.exists_of_bind h
    cases found with
    | none => cases h
    | some e' =>
      obtain rfl := Except.ok.inj h
      exact all_extent? htype hfound

/-- A pattern of digits is one wherever it stands. -/
theorem patternNumber_of_pattern {text p : String} {range : Span}
    (h : Value.patternNumber text range = .ok (.pattern p)) (other : Span) :
    Value.patternNumber text other = .ok (.pattern text) := by
  unfold Value.patternNumber at h ⊢
  simp only at h ⊢
  split at h
  · obtain ⟨_, _, h⟩ := Understood.exists_of_map h
    cases h
  · rename_i hdigits
    rw [if_neg hdigits]
    split at h
    · rename_i hplaces
      rw [if_pos hplaces]
    · obtain ⟨_, _, h⟩ := Understood.exists_of_map h
      cases h

/-- A literal that stands for nothing comparable is a pattern of digits. -/
theorem hasPattern_of_extent? {year : Int} {type : FieldType} {path : Path} {text : String}
    (htype : type.isComparable = true) (h : extent? year type path = .ok none)
    (htext : scalar path = .ok text) : type.HasPattern text := by
  cases type with
  | patternNumber =>
    obtain ⟨text', htext', h⟩ := Understood.exists_of_bind h
    obtain rfl := Except.ok.inj (htext.symm.trans htext')
    obtain ⟨n, hn, h⟩ := Understood.exists_of_bind h
    cases n with
    | extent n => cases h
    | pattern p => exact .inr ⟨rfl, patternNumber_of_pattern hn⟩
  | number =>
    obtain ⟨_, _, h⟩ := Understood.exists_of_bind h
    obtain ⟨_, _, h⟩ := Understood.exists_of_bind h
    cases h
  | size => obtain ⟨_, _, h⟩ := Understood.exists_of_bind h; cases h
  | date => obtain ⟨_, _, h⟩ := Understood.exists_of_bind h; cases h
  | dateTime => obtain ⟨_, _, h⟩ := Understood.exists_of_bind h; cases h
  | flag => cases htype
  | string => cases htype
  | patternString => cases htype
  | composition => cases htype

/-! ## Filters -/

/-- A filter that a phrase about a field may be understood as in some year. -/
structure Answers (year : Int) (field : Field) (f : Filter) : Prop where
  about : f.field = field
  values : ∀ v ∈ f.values, Suits year field.type v
  allowed : f.IsAllowed

/-- What a portion of a filter on a field may be. -/
def Portion.Answers (year : Int) (field : Field) : Portion → Prop
  | value v => Suits year field.type v
  | pattern p => field.type.HasPattern p
  | span first stop =>
    field.type.isComparable = true ∧ Suits year field.type first ∧ Suits year field.type stop

theorem answers_range {year : Int} {field : Field} {lower upper : Option Bound}
    (htype : field.type.isComparable = true) (hsome : lower.isSome ∨ upper.isSome)
    (hbounds : ∀ b ∈ lower.toList ++ upper.toList, Suits year field.type b.value) :
    Answers year field (.range field lower upper) where
  about := rfl
  values v hv := by
    obtain ⟨b, hb, rfl⟩ := List.mem_map.mp hv
    exact hbounds b hb
  allowed := ⟨htype, hsome⟩

/-- The filters of portions: one of all values, one of all patterns, and one of each span. -/
theorem answers_gather {year : Int} {field : Field} {portions : List Portion}
    (h : ∀ q ∈ portions, q.Answers year field) :
    ∀ f ∈ gather field portions, Answers year field f := by
  intro f hf
  rw [gather, List.mem_append, List.mem_append] at hf
  rcases hf with (hf | hf) | hf
  · unfold equalFilter at hf
    split at hf
    · cases hf
    · rename_i hne
      obtain rfl := List.mem_singleton.mp hf
      refine ⟨rfl, fun v hv => ?_, mt List.isEmpty_iff.mpr hne⟩
      obtain ⟨q, hq, hqv⟩ := List.mem_filterMap.mp hv
      cases q with
      | value w =>
        obtain rfl := Option.some.inj hqv
        exact h _ hq
      | pattern p => cases hqv
      | span first stop => cases hqv
  · unfold similarFilter at hf
    split at hf
    · cases hf
    · rename_i hne
      obtain rfl := List.mem_singleton.mp hf
      refine ⟨rfl, (fun v hv => by cases hv), mt List.isEmpty_iff.mpr hne, fun p hp => ?_⟩
      obtain ⟨q, hq, hqp⟩ := List.mem_filterMap.mp hp
      cases q with
      | pattern p' =>
        obtain rfl := Option.some.inj hqp
        exact h _ hq
      | value w => cases hqp
      | span first stop => cases hqp
  · obtain ⟨q, hq, hqf⟩ := List.mem_filterMap.mp hf
    cases q with
    | value v => cases hqf
    | pattern p => cases hqf
    | span first stop =>
      obtain rfl := Option.some.inj hqf
      obtain ⟨htype, hfirst, hstop⟩ := h _ hq
      refine answers_range htype (.inl rfl) fun b hb => ?_
      rcases List.mem_cons.mp hb with rfl | hb
      · exact hfirst
      · obtain rfl := List.mem_singleton.mp hb
        exact hstop

theorem answers_comparablePortion {year : Int} {field : Field} {path : Path} {q : Portion}
    (htype : field.type.isComparable = true)
    (h : comparablePortion year field.type path = .ok q) : q.Answers year field := by
  obtain ⟨e, he, h⟩ := Understood.exists_of_bind h
  match e with
  | some (.one v) =>
    obtain rfl := Except.ok.inj h
    exact all_extent? htype he
  | some (.span first stop) =>
    obtain rfl := Except.ok.inj h
    exact ⟨htype, all_extent? htype he⟩
  | none =>
    obtain ⟨text, htext, h⟩ := Understood.exists_of_bind h
    obtain rfl := Except.ok.inj h
    exact hasPattern_of_extent? htype he htext

theorem answers_textPortion {year : Int} {field : Field} {path : Path} {q : Portion}
    (htype : field.type = .patternString) (h : textPortion path = .ok q) :
      q.Answers year field := by
  obtain ⟨text, _, h⟩ := Understood.exists_of_bind h
  split at h
  · obtain rfl := Except.ok.inj h
    exact ⟨.inr htype, fun _ => trivial⟩
  · obtain rfl := Except.ok.inj h
    exact .inl htype

theorem isKnown_of_flagOf {path : Path} {f : Tagme} (h : flagOf path = .ok f) :
    Flags.IsKnown f := by
  obtain ⟨text, _, h⟩ := Understood.exists_of_bind h
  unfold Value.tagme at h
  split at h
  · rename_i g hg
    obtain rfl := Except.ok.inj h
    exact Flags.isKnown_of_ofTypedName? hg
  · cases h

/-- The filters of equality. -/
theorem answers_equal {year : Int} {field : Field} {paths : List Path} {fs : List Filter}
    (h : equal year field paths = .ok fs) : ∀ f ∈ fs, Answers year field f := by
  cases paths with
  | nil =>
    obtain rfl := Except.ok.inj h
    exact fun f hf => by cases hf
  | cons path paths =>
    have hcomparable : field.type.isComparable = true →
        (do return gather field (← (path :: paths).mapM (comparablePortion year field.type)) :
          Understood (List Filter)) = .ok fs → ∀ f ∈ fs, Answers year field f := by
      intro htype h
      obtain ⟨portions, hportions, h⟩ := Understood.exists_of_bind h
      obtain rfl := Except.ok.inj h
      refine answers_gather fun q hq => ?_
      obtain ⟨p, _, hp⟩ := Understood.exists_of_mem_mapM hportions q hq
      exact answers_comparablePortion htype hp
    unfold equal at h
    cases htype : field.type with
    | number => exact hcomparable (by rw [htype]; rfl) (by simpa only [htype] using h)
    | patternNumber => exact hcomparable (by rw [htype]; rfl) (by simpa only [htype] using h)
    | size => exact hcomparable (by rw [htype]; rfl) (by simpa only [htype] using h)
    | date => exact hcomparable (by rw [htype]; rfl) (by simpa only [htype] using h)
    | dateTime => exact hcomparable (by rw [htype]; rfl) (by simpa only [htype] using h)
    | flag =>
      rw [htype] at h
      cases h
    | string =>
      rw [htype] at h
      obtain ⟨values, hvalues, h⟩ := Understood.exists_of_bind h
      obtain rfl := Except.ok.inj h
      intro f hf
      obtain rfl := List.mem_singleton.mp hf
      refine ⟨rfl, fun v hv => ?_, Understood.ne_nil_of_mapM hvalues⟩
      obtain ⟨p, _, hp⟩ := Understood.exists_of_mem_mapM hvalues v hv
      obtain ⟨text, _, hp⟩ := Understood.exists_of_bind hp
      obtain rfl := Except.ok.inj hp
      exact ⟨.inl htype, fun _ => trivial⟩
    | patternString =>
      rw [htype] at h
      obtain ⟨portions, hportions, h⟩ := Understood.exists_of_bind h
      obtain rfl := Except.ok.inj h
      refine answers_gather fun q hq => ?_
      obtain ⟨p, _, hp⟩ := Understood.exists_of_mem_mapM hportions q hq
      exact answers_textPortion htype hp
    | composition =>
      rw [htype] at h
      obtain ⟨flags, hflags, h⟩ := Understood.exists_of_bind h
      obtain rfl := Except.ok.inj h
      intro f hf
      obtain rfl := List.mem_singleton.mp hf
      refine ⟨rfl, (fun v hv => by cases hv), htype, ?_⟩
      obtain ⟨flag, rest, rfl⟩ := List.exists_cons_of_ne_nil (Understood.ne_nil_of_mapM hflags)
      refine Flags.isKnown_unionAll fun g hg => ?_
      obtain ⟨p, _, hp⟩ := Understood.exists_of_mem_mapM hflags g hg
      exact isKnown_of_flagOf hp

theorem suits_lowerBound {year : Int} {type : FieldType} {e : Extent FilterValue}
    (h : e.All (Suits year type)) (included : Bool) :
      Suits year type (lowerBound included e).value := by
  cases e with
  | one v => exact h
  | span first stop => cases included <;> [exact h.2; exact h.1]

theorem suits_upperBound {year : Int} {type : FieldType} {e : Extent FilterValue}
    (h : e.All (Suits year type)) (included : Bool) :
      Suits year type (upperBound included e).value := by
  cases e with
  | one v => exact h
  | span first stop => cases included <;> [exact h.1; exact h.2]

theorem answers_rangeFilter {year : Int} {bounds : RangeBounds} {field : Field}
    {literal : RangeLiteral} {f : Filter} (htype : field.type.isComparable = true)
    (h : rangeFilter year bounds field literal = .ok f) : Answers year field f := by
  obtain ⟨first, hfirst, h⟩ := Understood.exists_of_bind h
  obtain ⟨last, hlast, h⟩ := Understood.exists_of_bind h
  obtain rfl := Except.ok.inj h
  refine answers_range htype (.inl rfl) fun b hb => ?_
  rcases List.mem_cons.mp hb with rfl | hb
  · exact suits_lowerBound (all_comparable htype hfirst) _
  · obtain rfl := List.mem_singleton.mp hb
    exact suits_upperBound (all_comparable htype hlast) _

theorem answers_comparisonFilter {year : Int} {field : Field} {e : Extent FilterValue}
    (htype : field.type.isComparable = true) (h : e.All (Suits year field.type)) (family : Family) :
    Answers year field (comparisonFilter field family e) := by
  have hlower : ∀ included, Answers year field (.range field (some (lowerBound included e)) none) :=
    fun included => answers_range htype (.inl rfl) fun b hb => by
      obtain rfl := List.mem_singleton.mp hb
      exact suits_lowerBound h included
  have hupper : ∀ included, Answers year field (.range field none (some (upperBound included e))) :=
    fun included => answers_range htype (.inr rfl) fun b hb => by
      obtain rfl := List.mem_singleton.mp hb
      exact suits_upperBound h included
  cases family with
  | gt => exact hlower false
  | gte => exact hlower true
  | lt => exact hupper false
  | lte => exact hupper true
  | equal => exact hupper true
  | similar => exact hupper true

/-- The filters of a binary relation. -/
theorem answers_binary {year : Int} {bounds : RangeBounds} {field : Field} {family : Family}
    {predicate : Predicate} {range : Span} {fs : List Filter}
    (h : binary year bounds field family predicate range = .ok fs) :
    ∀ f ∈ fs, Answers year field f := by
  unfold binary at h
  simp only at h
  split at h
  · cases h
  · split at h
    · split at h
      · obtain ⟨path, _, h⟩ := Understood.exists_of_bind h
        exact answers_equal h
      · exact answers_equal h
      · split at h
        · rename_i htype
          obtain ⟨f, hf, h⟩ := Understood.exists_of_bind h
          obtain rfl := Except.ok.inj h
          intro g hg
          obtain rfl := List.mem_singleton.mp hg
          exact answers_rangeFilter htype hf
        · cases h
    · split at h
      · rename_i htype
        obtain ⟨texts, _, h⟩ := Understood.exists_of_bind h
        obtain rfl := Except.ok.inj h
        have hstring : field.type = .patternString := by
          revert htype
          cases field.type <;> simp [FieldType.isMatchable]
        intro f hf
        unfold similarFilter at hf
        split at hf
        · cases hf
        · rename_i hne
          obtain rfl := List.mem_singleton.mp hf
          exact ⟨rfl, (fun v hv => by cases hv), mt List.isEmpty_iff.mpr hne,
            fun _ _ => .inl hstring⟩
      · cases h
    all_goals
      split at h
      · rename_i htype
        split at h
        · obtain ⟨path, _, h⟩ := Understood.exists_of_bind h
          obtain ⟨e, he, h⟩ := Understood.exists_of_bind h
          obtain rfl := Except.ok.inj h
          intro f hf
          obtain rfl := List.mem_singleton.mp hf
          exact answers_comparisonFilter htype (all_comparable htype he) _
        · cases h
        · cases h
      · cases h

/-- **All filters of a phrase** speak of its field and fit it. -/
theorem answers_filters {year : Int} {bounds : RangeBounds} {field : Field} {phrase : Phrase}
    {fs : List Filter} (h : filters year bounds field phrase = .ok fs) :
    ∀ f ∈ fs, Answers year field f := by
  have hflag : ∀ {fs}, field.type = .flag ∨ field.type = .composition →
      (Except.ok [.flag field] : Understood (List Filter)) = .ok fs →
        ∀ f ∈ fs, Answers year field f := by
    intro fs htype h f hf
    obtain rfl := Except.ok.inj h
    obtain rfl := List.mem_singleton.mp hf
    exact ⟨rfl, (fun v hv => by cases hv), htype⟩
  unfold filters at h
  simp only at h
  split at h
  · cases h
  · split at h
    · rename_i htype
      exact hflag (.inl htype) h
    · rename_i htype
      exact hflag (.inr htype) h
    all_goals cases h
  · split at h
    · cases h
    · exact answers_binary h

theorem Answers.fits {year : Int} {field : Field} {f : Filter}
    (h : Answers year field f) : f.Fits :=
  ⟨fun v hv => h.about ▸ (h.values v hv).1, h.allowed⟩

theorem Answers.isReadable {year : Int} {field : Field} {f : Filter} (h : Answers year field f)
    (hyear : 0 ≤ year) : f.IsReadable := fun v hv => (h.values v hv).2 hyear

end Filtering

end PixQuery
