import PixQuery.Meaning.Filtering
import PixQuery.Proofs.Query.Reading

/-!
# Which relations a field has

The type of a field, the symbol of a relation and the shape of what it relates to decide whether a
field has the relation, and with which code it is refused if it has not. What is written as a value
has no part in that: a relation that is refused is refused with the same cause whatever the values
are, and only where it is not refused are values read at all.

Results:
* `Filtering.refusal?`: the table of relations.
* `Filtering.valueFaults_equal`, `Filtering.valueFaults_comparable`: what can be wrong with values.
* `Filtering.filters_relation`: relations are refused by the table, and what is accepted can only be
  wrong in its values.
-/

namespace PixQuery

open Query (Path Value Predicate Phrase Relation Family Direction)

/-! ## Faults with some codes -/

namespace Understood

variable {α β : Type} {codes : List Nat} {x : Understood α}

/-- If there is a fault, it has one of the codes. -/
def FaultsAmong (codes : List Nat) : Understood α → Prop
  | .ok _ => True
  | .error fault => fault.cause.code ∈ codes

theorem FaultsAmong.bind {f : α → Understood β} (h : FaultsAmong codes x)
    (hf : ∀ a, FaultsAmong codes (f a)) : FaultsAmong codes (x >>= f) := by
  cases x with
  | ok a => exact hf a
  | error fault => exact h

theorem FaultsAmong.map {f : α → β} (h : FaultsAmong codes x) : FaultsAmong codes (x.map f) := by
  cases x with
  | ok a => trivial
  | error fault => exact h

/-- The faults of a row of parts are those of each part. -/
theorem FaultsAmong.mapM {f : α → Understood β} (hf : ∀ a, FaultsAmong codes (f a)) :
    ∀ {as : List α}, FaultsAmong codes (as.mapM f)
  | [] => trivial
  | a :: as => by
    rw [List.mapM_cons]
    exact (hf a).bind fun _ => (FaultsAmong.mapM hf).bind fun _ => trivial

end Understood

open Understood (FaultsAmong)

namespace Filtering

variable {year : Int} {bounds : RangeBounds} {type : FieldType} {field : Field} {path : Path}

/-! ## What can be wrong with values -/

/-- The codes of values that are an address, a pattern or a literal where there may be none, or that
have something before them. -/
def valueCodes : List Nat := [3017, 3018, 3019, 3020, 3025]

/-- If something is wrong, it is a value. -/
abbrev ValueFaults {α : Type} (x : Understood α) : Prop := FaultsAmong valueCodes x

theorem valueFaults_singleValue {name : String} {v : Value} :
    ValueFaults (singleValue name [v]) := by
  simp only [singleValue]
  split
  · trivial
  · show 3025 ∈ valueCodes
    decide

theorem valueFaults_scalar : ValueFaults (scalar path) := by
  unfold scalar
  split
  · trivial
  · show 3017 ∈ valueCodes
    decide

theorem valueFaults_orCastFault {α : Type} {text expected : String} {range : Span}
    {value : Option α} : ValueFaults (Value.orCastFault text expected range value) := by
  cases value with
  | some a => trivial
  | none =>
    show 3019 ∈ valueCodes
    decide

theorem valueFaults_patternNumber {text : String} {range : Span} :
    ValueFaults (Value.patternNumber text range) := by
  unfold Value.patternNumber
  simp only
  split
  · exact valueFaults_orCastFault.map
  split
  · trivial
  · exact valueFaults_orCastFault.map

theorem valueFaults_extent? : ValueFaults (extent? year type path) := by
  cases type
  case size | date | dateTime => exact valueFaults_orCastFault.bind fun _ => trivial
  case patternNumber =>
    refine valueFaults_scalar.bind fun text => valueFaults_patternNumber.bind fun number => ?_
    cases number <;> trivial
  all_goals
    exact valueFaults_scalar.bind fun _ => valueFaults_orCastFault.bind fun _ => trivial

/-- **What can be wrong with a literal that something is compared with**. -/
theorem valueFaults_comparable : ValueFaults (comparable year type path) := by
  have hpattern : 3018 ∈ valueCodes := by decide
  unfold comparable
  split
  · exact hpattern
  · refine valueFaults_extent?.bind fun e => ?_
    cases e with
    | some e => trivial
    | none => exact hpattern

theorem valueFaults_comparablePortion : ValueFaults (comparablePortion year type path) := by
  refine valueFaults_extent?.bind fun e => ?_
  rcases e with _ | _ | _
  · exact valueFaults_scalar.bind fun _ => trivial
  · trivial
  · trivial

theorem valueFaults_textPortion : ValueFaults (textPortion path) := by
  refine valueFaults_scalar.bind fun text => ?_
  split <;> trivial

theorem valueFaults_flagOf : ValueFaults (flagOf path) := by
  refine valueFaults_scalar.bind fun text => ?_
  unfold Value.tagme
  split
  · trivial
  · show 3020 ∈ valueCodes
    decide

/-- **What can be wrong with values of a field** that takes any. -/
theorem valueFaults_equal (hfield : field.type ≠ .flag) {paths : List Path} :
    ValueFaults (equal year field paths) := by
  unfold equal
  split
  · trivial
  revert hfield
  generalize field.type = type
  intro htype
  cases type
  case flag => exact absurd rfl htype
  case string =>
    have hvalue : ∀ p : Path, ValueFaults (do return FilterValue.text (← scalar p)) := fun _ =>
      valueFaults_scalar.bind fun _ => trivial
    exact (FaultsAmong.mapM hvalue).bind fun _ => trivial
  case patternString =>
    exact (FaultsAmong.mapM fun _ => valueFaults_textPortion).bind fun _ => trivial
  case composition =>
    exact (FaultsAmong.mapM fun _ => valueFaults_flagOf).bind fun _ => trivial
  all_goals
    exact (FaultsAmong.mapM fun _ => valueFaults_comparablePortion).bind fun _ => trivial

theorem valueFaults_rangeFilter {literal : Query.RangeLiteral} :
    ValueFaults (rangeFilter year bounds field literal) :=
  valueFaults_comparable.bind fun _ => valueFaults_comparable.bind fun _ => trivial

/-! ## The table of relations -/

/-- The code with which a field refuses a relation, if it does. Each row is a type of fields. -/
def refusal? (type : FieldType) (family : Family) (shape : ValueShape) : Option Nat :=
  match type with
  | .flag => some 3002
  | .number | .patternNumber | .size | .date | .dateTime =>
    match family, shape with
    | _, .list => some 3003
    | .equal, .value | .equal, .collection | .equal, .range => none
    | .similar, .value | .similar, .collection | .similar, .range => some 3005
    | .gt, .value | .gte, .value | .lt, .value | .lte, .value => none
    | .gt, .collection | .gte, .collection | .lt, .collection | .lte, .collection => some 3004
    | .gt, .range | .gte, .range | .lt, .range | .lte, .range => some 3004
  | .string | .composition =>
    match family, shape with
    | _, .list => some 3003
    | .equal, .value | .equal, .collection => none
    | .equal, .range => some 3003
    | _, _ => some 3005
  | .patternString =>
    match family, shape with
    | _, .list => some 3003
    | .equal, .value | .equal, .collection => none
    | .equal, .range => some 3003
    | .similar, .value | .similar, .collection => none
    | .similar, .range => some 3004
    | _, _ => some 3005

/-- The columns of the table: a list is refused first, then what the symbol of the relation asks of
the type counts, and then what it asks of the shape. -/
theorem refusal?_eq (type : FieldType) (family : Family) (shape : ValueShape) :
    refusal? type family shape =
      if type = .flag then some 3002
      else if shape = .list then some 3003
      else if family.isComparison then
        if type.isComparable then if shape = .value then none else some 3004 else some 3005
      else if family = .similar then
        if type.isMatchable then if shape = .range then some 3004 else none else some 3005
      else if shape = .range then if type.isComparable then none else some 3003
      else none := by
  cases type <;> cases family <;> cases shape <;> rfl

/-! ## Phrases -/

variable {family : Family} {predicate : Predicate} {range : Span}

theorem eq_equal (hcomparison : ¬family.isComparison = true) (hsimilar : family ≠ .similar) :
    family = .equal := by
  cases family
  case equal => rfl
  case similar => cases hsimilar rfl
  all_goals cases hcomparison rfl

/-- What is neither a list nor without any value has one value. -/
theorem exists_eq_singleton {values : List Value}
    (hlist : Sequence.shapeOf (.values values) ≠ .list)
    (hcomplete : (Predicate.values values).IsComplete) : ∃ v, values = [v] := by
  have hle : ¬1 < values.length := fun hlt => hlist (if_pos hlt)
  have hpos : 0 < values.length := List.length_pos_iff.mpr hcomplete
  exact List.length_eq_one_iff.mp (by omega)

theorem exists_eq_range (h : Sequence.shapeOf predicate = .range) :
    ∃ literal, predicate = .range literal := by
  cases predicate with
  | values values =>
    simp only [Sequence.shapeOf] at h
    split at h <;> cases h
  | collection paths => cases h
  | range literal => exact ⟨literal, rfl⟩

theorem exists_eq_values (h : Sequence.shapeOf predicate = .value) :
    ∃ values, predicate = .values values := by
  cases predicate with
  | values values => exact ⟨values, rfl⟩
  | collection paths => cases h
  | range literal => cases h

theorem filters_eq_binary_of_ne (hflag : field.type ≠ .flag) (subject : Path) (whole : Span) :
    filters year bounds field ⟨subject, some (.binary family predicate range), whole⟩ =
      binary year bounds field family predicate range :=
  if_neg hflag

theorem binary_equal_range {literal : Query.RangeLiteral} :
    binary year bounds field .equal (.range literal) range =
      if field.type.isComparable then do return [← rangeFilter year bounds field literal]
      else .error ⟨.filterShape field.displayName .range, range⟩ :=
  rfl

theorem binary_similar (hlist : Sequence.shapeOf predicate ≠ .list) :
    binary year bounds field .similar predicate range =
      if field.type.isMatchable then do
        return similarFilter field (← patterns field .similar range predicate)
      else .error ⟨.filterRelation field.displayName "~", range⟩ :=
  if_neg hlist

/-- All comparisons ask the same of the type of a field and of the shape. -/
theorem binary_comparison (hfamily : family.isComparison = true) :
    Sequence.shapeOf predicate ≠ .list →
    binary year bounds field family predicate range =
      if field.type.isComparable then
        match predicate with
        | .values values => do
          let e ← comparable year field.type (← singleValue field.displayName values)
          return [comparisonFilter field family e]
        | .collection _ | .range _ =>
          .error ⟨.filterShapeOfRelation field.displayName (Sequence.shapeOf predicate)
            family.spelling, range⟩
      else .error ⟨.filterRelation field.displayName family.spelling, range⟩ := by
  intro hlist
  cases family
  case equal | similar => cases hfamily
  all_goals exact if_neg hlist

/-- All relations of a symbol and a shape are refused with the same cause, whatever stands in
them. -/
def Refuses (field : Field) (family : Family) (shape : ValueShape) (cause : SemanticCause) : Prop :=
  ∀ (year : Int) (bounds : RangeBounds) (subject : Path) (predicate : Predicate)
    (range whole : Span), Sequence.shapeOf predicate = shape →
    filters year bounds field ⟨subject, some (.binary family predicate range), whole⟩ =
      .error ⟨cause, range⟩

section Refuses

variable {shape : ValueShape}

theorem refuses_flag (hflag : field.type = .flag) :
    Refuses field family shape (.filterTakesNoValue field.displayName) :=
  fun _ _ _ _ _ _ _ => if_pos hflag

theorem refuses_list (hflag : field.type ≠ .flag) :
    Refuses field family .list (.filterShape field.displayName .list) := by
  intro year bounds subject predicate range whole hshape
  rw [filters_eq_binary_of_ne hflag, ← hshape]
  exact if_pos hshape

theorem refuses_comparison (hflag : field.type ≠ .flag) (hlist : shape ≠ .list)
    (hfamily : family.isComparison = true) (htype : ¬field.type.isComparable = true) :
    Refuses field family shape (.filterRelation field.displayName family.spelling) := by
  rintro year bounds subject predicate range whole rfl
  rw [filters_eq_binary_of_ne hflag, binary_comparison hfamily hlist, if_neg htype]

theorem refuses_comparison_shape (hflag : field.type ≠ .flag) (hlist : shape ≠ .list)
    (hfamily : family.isComparison = true) (htype : field.type.isComparable = true)
    (hvalue : shape ≠ .value) :
    Refuses field family shape
      (.filterShapeOfRelation field.displayName shape family.spelling) := by
  rintro year bounds subject predicate range whole rfl
  rw [filters_eq_binary_of_ne hflag, binary_comparison hfamily hlist, if_pos htype]
  cases predicate with
  | values values => cases hvalue (if_neg fun hlt => hlist (if_pos hlt))
  | collection paths => rfl
  | range literal => rfl

theorem refuses_similar (hflag : field.type ≠ .flag) (hlist : shape ≠ .list)
    (htype : ¬field.type.isMatchable = true) :
    Refuses field .similar shape (.filterRelation field.displayName "~") := by
  rintro year bounds subject predicate range whole rfl
  rw [filters_eq_binary_of_ne hflag, binary_similar hlist, if_neg htype]

theorem refuses_similar_range (hflag : field.type ≠ .flag) (htype : field.type.isMatchable = true) :
    Refuses field .similar .range (.filterShapeOfRelation field.displayName .range "~") := by
  intro year bounds subject predicate range whole hshape
  obtain ⟨literal, rfl⟩ := exists_eq_range hshape
  rw [filters_eq_binary_of_ne hflag, binary_similar (by rintro ⟨⟩), if_pos htype]
  rfl

theorem refuses_equal_range (hflag : field.type ≠ .flag)
    (htype : ¬field.type.isComparable = true) :
    Refuses field .equal .range (.filterShape field.displayName .range) := by
  intro year bounds subject predicate range whole hshape
  obtain ⟨literal, rfl⟩ := exists_eq_range hshape
  rw [filters_eq_binary_of_ne hflag, binary_equal_range, if_neg htype]

/-- What the table refuses is refused with its code. -/
theorem exists_refuses {code : Nat} (h : refusal? field.type family shape = some code) :
    ∃ cause : SemanticCause, cause.code = code ∧ Refuses field family shape cause := by
  rw [refusal?_eq] at h
  split_ifs at h with hflag hlist hcomparison htype hvalue hsimilar htype hrange hrange htype
  all_goals obtain rfl := Option.some.inj h
  · exact ⟨_, rfl, refuses_flag hflag⟩
  · exact ⟨_, rfl, hlist ▸ refuses_list hflag⟩
  · exact ⟨_, rfl, refuses_comparison_shape hflag hlist hcomparison htype hvalue⟩
  · exact ⟨_, rfl, refuses_comparison hflag hlist hcomparison htype⟩
  · exact ⟨_, rfl, hsimilar ▸ hrange ▸ refuses_similar_range hflag htype⟩
  · exact ⟨_, rfl, hsimilar ▸ refuses_similar hflag hlist htype⟩
  · obtain rfl := eq_equal hcomparison hsimilar
    exact ⟨_, rfl, hrange ▸ refuses_equal_range hflag htype⟩

end Refuses

theorem valueFaults_patterns (hcomplete : predicate.IsComplete)
    (hlist : Sequence.shapeOf predicate ≠ .list) (hrange : Sequence.shapeOf predicate ≠ .range) :
    ValueFaults (patterns field family range predicate) := by
  cases predicate with
  | values values =>
    obtain ⟨v, rfl⟩ := exists_eq_singleton hlist hcomplete
    exact valueFaults_singleValue.bind fun _ => valueFaults_scalar.bind fun _ => trivial
  | collection paths => exact FaultsAmong.mapM fun _ => valueFaults_scalar
  | range literal => cases hrange rfl

/-- What the table does not refuse can only be wrong in its values. -/
theorem valueFaults_filters {subject : Path} {whole : Span} (hcomplete : predicate.IsComplete)
    (h : refusal? field.type family (Sequence.shapeOf predicate) = none) :
    ValueFaults (filters year bounds field
      ⟨subject, some (.binary family predicate range), whole⟩) := by
  rw [refusal?_eq] at h
  split_ifs at h with hflag hlist hcomparison htype hvalue hsimilar htype hrange hrange htype
  all_goals rw [filters_eq_binary_of_ne hflag]
  · obtain ⟨values, rfl⟩ := exists_eq_values hvalue
    obtain ⟨v, rfl⟩ := exists_eq_singleton hlist hcomplete
    rw [binary_comparison hcomparison hlist, if_pos htype]
    exact valueFaults_singleValue.bind fun _ => valueFaults_comparable.bind fun _ => trivial
  · subst hsimilar
    rw [binary_similar hlist, if_pos htype]
    exact (valueFaults_patterns hcomplete hlist hrange).bind fun _ => trivial
  · obtain rfl := eq_equal hcomparison hsimilar
    obtain ⟨literal, rfl⟩ := exists_eq_range hrange
    rw [binary_equal_range, if_pos htype]
    exact valueFaults_rangeFilter.bind fun _ => trivial
  · obtain rfl := eq_equal hcomparison hsimilar
    cases predicate with
    | values values =>
      obtain ⟨v, rfl⟩ := exists_eq_singleton hlist hcomplete
      exact valueFaults_singleValue.bind fun _ => valueFaults_equal hflag
    | collection paths => exact valueFaults_equal hflag
    | range literal => cases hrange rfl

/-- **The relations of a field.** What the table refuses is refused with its code and with the same
cause whatever is written in the relation. What the table does not refuse can only be wrong in its
values, where there are any, as in all that is read from a query. No field has a relation in a
direction. -/
theorem filters_relation (field : Field) (family : Family) (shape : ValueShape) :
    (∀ code, refusal? field.type family shape = some code →
      ∃ cause : SemanticCause, cause.code = code ∧ Refuses field family shape cause) ∧
    (refusal? field.type family shape = none →
      ∀ (year : Int) (bounds : RangeBounds) (subject : Path) (predicate : Predicate)
        (range whole : Span), Sequence.shapeOf predicate = shape → predicate.IsComplete →
        ValueFaults (filters year bounds field
          ⟨subject, some (.binary family predicate range), whole⟩)) ∧
    ∀ direction, ∃ cause : SemanticCause, cause.code = 3005 ∧
      ∀ (year : Int) (bounds : RangeBounds) (subject : Path) (range whole : Span),
        filters year bounds field ⟨subject, some (.unary direction range), whole⟩ =
          .error ⟨cause, range⟩ := by
  refine ⟨fun code => exists_refuses, ?_, fun direction => ?_⟩
  · rintro h year bounds subject predicate range whole rfl hcomplete
    exact valueFaults_filters hcomplete h
  · exact ⟨.filterRelation field.displayName (Relation.unary direction (.point 0)).spelling, rfl,
      fun _ _ _ range _ => by cases direction <;> rfl⟩

/-- `score~x` is refused for its symbol whatever `x` is, and `score>x` where `x` is no number. -/
theorem filters_relation_score :
    let x : Predicate := .values [⟨none, false, ⟨⟨"x", .word, .between 6 7⟩, []⟩, .between 6 7⟩]
    let score (family : Family) : Understood (List Filter) :=
      filters 1970 ⟨true, true⟩ .score
        ⟨⟨⟨"score", .word, .between 0 5⟩, []⟩, some (.binary family x (.between 5 7)), .between 0 7⟩
    (∃ cause : SemanticCause, cause.code = 3005 ∧ score .similar = .error ⟨cause, .between 5 7⟩) ∧
      ValueFaults (score .gt) ∧ score .gt = .error ⟨.typeCast "x" "number", .between 6 7⟩ := by
  intro x score
  obtain ⟨cause, hcode, hcause⟩ := (filters_relation .score .similar .value).1 3005 rfl
  exact ⟨⟨cause, hcode, hcause _ _ _ _ _ _ rfl⟩,
    (filters_relation .score .gt .value).2.1 rfl _ _ _ _ _ _ rfl (List.cons_ne_nil _ _),
    by decide +kernel⟩

end Filtering

end PixQuery
