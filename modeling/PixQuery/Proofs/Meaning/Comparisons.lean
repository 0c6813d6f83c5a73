import PixQuery.Proofs.Meaning.WellTyped
import PixQuery.Proofs.Value.Spans

/-!
# Comparisons mean what their literals mean

A literal stands for one value, or for all values from one on up to another. A comparison with a
literal is one with all the values it stands for: greater than each of them, at least some of them,
and so on. The filters compare with one end of the span only, and which end it is, and whether it
belongs to the filter, depends on the relation.

Values of one type are ordered. `FilterValue.rank` turns this order into that of whole numbers.

Results:
* `FilterValue.before_iff`: the order of values of a type is that of their ranks.
* `Filtering.proper_of_extent?`: a literal stands for some value of the type it is read with.
* `Filtering.isBelow_lowerBound`, `Filtering.isAbove_upperBound`: what the bounds of a literal
  admit.
* `Filtering.comparisons_mean`: what the filters of equalities, comparisons and ranges accept.
-/

namespace PixQuery

open Query (Path Value Predicate Phrase Relation Family RangeLiteral Brackets)

/-! ## The order of values -/

namespace FilterValue

/-- A value comes before another of the same kind: numbers and sizes by their amount, days by the
calendar. -/
def Before : FilterValue → FilterValue → Prop
  | number a, number b => a.toInt < b.toInt
  | size a, size b => a.toNat < b.toNat
  | date a, date b => a.isBefore b = true
  | _, _ => False

/-- A value comes before another or is the same. -/
def UpTo (x y : FilterValue) : Prop := x.Before y ∨ x = y

/-- A whole number for each value, in the order of the values of its kind. -/
def rank : FilterValue → Int
  | number n => n.toInt
  | size n => n.toNat
  | date d => d.rank
  | text _ => 0

variable {type : FieldType} {x y : FilterValue}

/-- The values of a comparable type are all numbers, all sizes or all days. -/
theorem cases_of_isOf (htype : type.isComparable = true) (hx : x.IsOf type) (hy : y.IsOf type) :
    (∃ a b, x = number a ∧ y = number b) ∨ (∃ a b, x = size a ∧ y = size b) ∨
      ∃ a b, x = date a ∧ y = date b := by
  cases type with
  | number | patternNumber =>
    obtain ⟨a, rfl⟩ := hx
    obtain ⟨b, rfl⟩ := hy
    exact .inl ⟨a, b, rfl, rfl⟩
  | size =>
    obtain ⟨a, rfl⟩ := hx
    obtain ⟨b, rfl⟩ := hy
    exact .inr (.inl ⟨a, b, rfl, rfl⟩)
  | date | dateTime =>
    obtain ⟨a, rfl⟩ := hx
    obtain ⟨b, rfl⟩ := hy
    exact .inr (.inr ⟨a, b, rfl, rfl⟩)
  | flag | string | patternString | composition => cases htype

theorem before_iff (htype : type.isComparable = true) (hx : x.IsOf type) (hy : y.IsOf type) :
    x.Before y ↔ x.rank < y.rank := by
  obtain ⟨a, b, rfl, rfl⟩ | ⟨a, b, rfl, rfl⟩ | ⟨a, b, rfl, rfl⟩ := cases_of_isOf htype hx hy
  · exact Iff.rfl
  · exact Int.ofNat_lt.symm
  · exact Date.isBefore_iff a b

theorem eq_iff (htype : type.isComparable = true) (hx : x.IsOf type) (hy : y.IsOf type) :
    x = y ↔ x.rank = y.rank := by
  obtain ⟨a, b, rfl, rfl⟩ | ⟨a, b, rfl, rfl⟩ | ⟨a, b, rfl, rfl⟩ := cases_of_isOf htype hx hy
  · simp only [rank, number.injEq, Int64.toInt_inj]
  · simp only [rank, size.injEq, Int.natCast_inj, UInt64.toNat_inj]
  · simp only [rank, date.injEq, Date.rank_inj]

theorem upTo_iff (htype : type.isComparable = true) (hx : x.IsOf type) (hy : y.IsOf type) :
    x.UpTo y ↔ x.rank ≤ y.rank := by
  rw [UpTo, before_iff htype hx hy, eq_iff htype hx hy]
  omega

/-- Only values of one type come before each other. -/
theorem isOf_of_before (h : x.Before y) (hy : y.IsOf type) : x.IsOf type := by
  cases type with
  | number | patternNumber =>
    obtain ⟨b, rfl⟩ := hy
    cases x with
    | number a => exact ⟨a, rfl⟩
    | size | date | text => cases h
  | size =>
    obtain ⟨b, rfl⟩ := hy
    cases x with
    | size a => exact ⟨a, rfl⟩
    | number | date | text => cases h
  | date | dateTime =>
    obtain ⟨b, rfl⟩ := hy
    cases x with
    | date a => exact ⟨a, rfl⟩
    | number | size | text => cases h
  | string | patternString =>
    obtain ⟨b, rfl⟩ := hy
    cases x <;> cases h
  | flag | composition => cases hy

end FilterValue

/-! ## What a literal stands for -/

namespace Extent

/-- The literal stands for the value. -/
def Has (x : FilterValue) : Extent FilterValue → Prop
  | one v => x = v
  | span first stop => first.UpTo x ∧ x.Before stop

/-- The literal stands for values of a type, and for one at least. -/
structure IsProper (type : FieldType) (e : Extent FilterValue) : Prop where
  isOf : e.All (FilterValue.IsOf type)
  forward : e.Forward FilterValue.Before

namespace IsProper

variable {type : FieldType} {e : Extent FilterValue} {first stop x : FilterValue}

theorem isOf_of_has (h : e.IsProper type) (hx : e.Has x) : x.IsOf type := by
  cases e with
  | one v => exact hx ▸ h.isOf
  | span first stop => exact FilterValue.isOf_of_before hx.2 h.isOf.2

theorem has_first (h : (span first stop).IsProper type) : (span first stop).Has first :=
  ⟨.inr rfl, h.forward⟩

theorem has_span_iff (h : (span first stop).IsProper type) (htype : type.isComparable = true)
    (hx : x.IsOf type) :
    (span first stop).Has x ↔ first.rank ≤ x.rank ∧ x.rank < stop.rank :=
  and_congr (FilterValue.upTo_iff htype h.isOf.1 hx) (FilterValue.before_iff htype hx h.isOf.2)

end IsProper

end Extent

/-! ## What filters accept -/

/-- A value lies on the right side of a lower bound. -/
def Bound.IsBelow (b : Bound) (x : FilterValue) : Prop :=
  b.value.Before x ∨ b.inclusive = true ∧ b.value = x

/-- A value lies on the right side of an upper bound. -/
def Bound.IsAbove (b : Bound) (x : FilterValue) : Prop :=
  x.Before b.value ∨ b.inclusive = true ∧ x = b.value

/-- A filter that compares values accepts a value of its field. -/
def Filter.Accepts (x : FilterValue) : Filter → Prop
  | equal _ values => x ∈ values
  | range _ lower upper => (∀ b ∈ lower, b.IsBelow x) ∧ ∀ b ∈ upper, b.IsAbove x
  | similar .. | flag _ | composition .. => False

namespace Filtering

variable {year : Int} {bounds : RangeBounds} {field : Field} {type : FieldType}

/-! ## Bounds -/

section Bounds

variable {e : Extent FilterValue} {x : FilterValue}

/-- **The lower bound of a literal** admits what is greater than all it stands for, or what is at
least some of that when the end is included. -/
theorem isBelow_lowerBound (htype : type.isComparable = true) (he : e.IsProper type)
    (hx : x.IsOf type) (included : Bool) :
    (lowerBound included e).IsBelow x ↔
      if included then ∃ y, e.Has y ∧ y.UpTo x else ∀ y, e.Has y → y.Before x := by
  cases e with
  | one v =>
    cases included with
    | true => simp [lowerBound, Bound.IsBelow, Extent.Has, FilterValue.UpTo]
    | false => simp [lowerBound, Bound.IsBelow, Extent.Has]
  | span first stop =>
    obtain ⟨hfirst, hstop⟩ := he.isOf
    cases included with
    | true =>
      have hbound : (lowerBound true (.span first stop)).IsBelow x ↔ first.UpTo x := by
        simp [lowerBound, Bound.IsBelow, FilterValue.UpTo]
      rw [hbound, if_pos rfl]
      refine ⟨fun hle => ⟨first, he.has_first, hle⟩, ?_⟩
      rintro ⟨y, hy, hyx⟩
      have hytype := he.isOf_of_has hy
      have hrank := (he.has_span_iff htype hytype).mp hy
      rw [FilterValue.upTo_iff htype hytype hx] at hyx
      rw [FilterValue.upTo_iff htype hfirst hx]
      omega
    | false =>
      have hbound : (lowerBound false (.span first stop)).IsBelow x ↔ stop.UpTo x := by
        simp [lowerBound, Bound.IsBelow, FilterValue.UpTo]
      rw [hbound, FilterValue.upTo_iff htype hstop hx, if_neg Bool.false_ne_true]
      constructor
      · intro hle y hy
        have hytype := he.isOf_of_has hy
        have hrank := (he.has_span_iff htype hytype).mp hy
        rw [FilterValue.before_iff htype hytype hx]
        omega
      · intro hall
        have hless := (FilterValue.before_iff htype hfirst hx).mp (hall first he.has_first)
        -- A value inside the span would come before itself.
        by_contra hinside
        have hself := hall x ((he.has_span_iff htype hx).mpr ⟨by omega, by omega⟩)
        rw [FilterValue.before_iff htype hx hx] at hself
        omega

/-- **The upper bound of a literal** admits what is less than all it stands for, or what is at most
some of that when the end is included. -/
theorem isAbove_upperBound (htype : type.isComparable = true) (he : e.IsProper type)
    (hx : x.IsOf type) (included : Bool) :
    (upperBound included e).IsAbove x ↔
      if included then ∃ y, e.Has y ∧ x.UpTo y else ∀ y, e.Has y → x.Before y := by
  cases e with
  | one v =>
    cases included with
    | true => simp [upperBound, Bound.IsAbove, Extent.Has, FilterValue.UpTo]
    | false => simp [upperBound, Bound.IsAbove, Extent.Has]
  | span first stop =>
    obtain ⟨hfirst, hstop⟩ := he.isOf
    cases included with
    | true =>
      have hbound : (upperBound true (.span first stop)).IsAbove x ↔ x.Before stop := by
        simp [upperBound, Bound.IsAbove]
      rw [hbound, FilterValue.before_iff htype hx hstop, if_pos rfl]
      constructor
      · intro hless
        -- The greater of `x` and the first value lies in the span.
        by_cases hle : x.rank ≤ first.rank
        · exact ⟨first, he.has_first, (FilterValue.upTo_iff htype hx hfirst).mpr hle⟩
        · exact ⟨x, (he.has_span_iff htype hx).mpr ⟨by omega, hless⟩, .inr rfl⟩
      · rintro ⟨y, hy, hxy⟩
        have hytype := he.isOf_of_has hy
        have hrank := (he.has_span_iff htype hytype).mp hy
        rw [FilterValue.upTo_iff htype hx hytype] at hxy
        omega
    | false =>
      have hbound : (upperBound false (.span first stop)).IsAbove x ↔ x.Before first := by
        simp [upperBound, Bound.IsAbove]
      rw [hbound, if_neg Bool.false_ne_true]
      refine ⟨fun hless y hy => ?_, fun hall => hall first he.has_first⟩
      have hytype := he.isOf_of_has hy
      have hrank := (he.has_span_iff htype hytype).mp hy
      rw [FilterValue.before_iff htype hx hfirst] at hless
      rw [FilterValue.before_iff htype hx hytype]
      omega

end Bounds

/-! ## Literals -/

theorem forward_map {α : Type} {before : α → α → Prop} {f : α → FilterValue} {e : Extent α}
    (hf : ∀ a b, before a b → (f a).Before (f b)) (h : e.Forward before) :
    (Extent.map f e).Forward FilterValue.Before := by
  cases e with
  | one a => trivial
  | span a b => exact hf a b h

theorem forward_patternNumber {text : String} {range : Span} {e : Extent Int64}
    (h : Value.patternNumber text range = .ok (.extent e)) :
    e.Forward fun a b => a.toInt < b.toInt := by
  unfold Value.patternNumber at h
  simp only at h
  split at h
  · obtain ⟨n, _, h⟩ := Understood.exists_of_map h
    obtain rfl := PatternNumber.extent.inj h
    trivial
  · split at h
    · cases h
    · obtain ⟨e', he', h⟩ := Understood.exists_of_map h
      obtain rfl := PatternNumber.extent.inj h
      exact Value.forward_decade? (Understood.eq_some_of_orCastFault he')

/-- **A literal stands for some value** of the type it is read with. -/
theorem proper_of_extent? {path : Path} {e : Extent FilterValue}
    (htype : type.isComparable = true) (h : extent? year type path = .ok (some e)) :
    e.IsProper type := by
  have hall := all_extent? htype h
  refine ⟨?_, ?_⟩
  · cases e with
    | one v => exact hall.1.isOf
    | span first stop => exact ⟨hall.1.1.isOf, hall.2.1.isOf⟩
  · cases type with
    | number =>
      obtain ⟨text, _, h⟩ := Understood.exists_of_bind h
      obtain ⟨n, _, h⟩ := Understood.exists_of_bind h
      obtain rfl := Option.some.inj (Except.ok.inj h)
      trivial
    | patternNumber =>
      obtain ⟨text, _, h⟩ := Understood.exists_of_bind h
      obtain ⟨n, hn, h⟩ := Understood.exists_of_bind h
      cases n with
      | pattern p => cases h
      | extent n =>
        obtain rfl := Option.some.inj (Except.ok.inj h)
        exact forward_map (fun _ _ => id) (forward_patternNumber hn)
    | size =>
      obtain ⟨n, _, h⟩ := Understood.exists_of_bind h
      obtain rfl := Option.some.inj (Except.ok.inj h)
      trivial
    | date | dateTime =>
      obtain ⟨d, hd, h⟩ := Understood.exists_of_bind h
      obtain rfl := Option.some.inj (Except.ok.inj h)
      exact forward_map (fun _ _ => id)
        (Value.forward_date? (Understood.eq_some_of_orCastFault hd))
    | flag | string | patternString | composition => cases htype

/-! ## Phrases -/

/-- A phrase about a field that relates it to a literal or to a range of two. -/
def phraseOf (subject : Path) (family : Family) (predicate : Predicate) (relation phrase : Span) :
    Phrase :=
  ⟨subject, some (.binary family predicate relation), phrase⟩

/-- A literal with nothing before it. -/
def literalOf (path : Path) (span : Span) : Predicate := .values [⟨none, false, path, span⟩]

section Phrases

variable {L M : Path} {l m : Extent FilterValue} {x : FilterValue} {subject : Path}
  {span relation whole : Span}

theorem comparable_eq (hl : extent? year type L = .ok (some l))
    (hpattern : Value.isPattern L.joined = false) : comparable year type L = .ok l := by
  unfold comparable
  rw [hpattern, hl]
  rfl

theorem comparable_of_isPattern (hpattern : Value.isPattern L.joined = true) :
    comparable year type L = .error ⟨.patternInComparison, L.range⟩ := by
  unfold comparable
  rw [hpattern]
  rfl

/-- Fields that can be compared take values. -/
theorem filters_eq_binary (htype : field.type.isComparable = true) (family : Family)
    (predicate : Predicate) :
    filters year bounds field (phraseOf subject family predicate relation whole) =
      binary year bounds field family predicate relation := by
  have hflag : field.type ≠ .flag := fun h => by
    rw [h] at htype
    cases htype
  simp only [filters, phraseOf, if_neg hflag]

theorem binary_literal_equal (htype : field.type.isComparable = true)
    (hl : extent? year field.type L = .ok (some l)) :
    ∃ fs, binary year bounds field .equal (literalOf L span) relation = .ok fs ∧
      ∀ x, (∃ f ∈ fs, f.Accepts x) ↔ l.Has x := by
  have hequal : binary year bounds field .equal (literalOf L span) relation =
      (comparablePortion year field.type L).map fun portion => gather field [portion] := by
    show equal year field [L] = _
    have hcases : equal year field [L] =
        ([L].mapM (comparablePortion year field.type)).map (gather field) := by
      unfold equal
      cases hfield : field.type with
      | number | patternNumber | size | date | dateTime => rfl
      | flag | string | patternString | composition =>
        rw [hfield] at htype
        cases htype
    rw [hcases, List.mapM_cons, List.mapM_nil]
    cases comparablePortion year field.type L <;> rfl
  rw [hequal]
  cases l with
  | one v =>
    have hportion : comparablePortion year field.type L = .ok (.value v) := by
      simp only [comparablePortion, hl, Understood.ok_bind]
      rfl
    rw [hportion]
    refine ⟨[.equal field [v]], rfl, fun x => ?_⟩
    simp [Filter.Accepts, Extent.Has]
  | span first stop =>
    have hportion : comparablePortion year field.type L = .ok (.span first stop) := by
      simp only [comparablePortion, hl, Understood.ok_bind]
      rfl
    rw [hportion]
    refine ⟨[.range field (some ⟨first, true⟩) (some ⟨stop, false⟩)], rfl, fun x => ?_⟩
    simp [Filter.Accepts, Extent.Has, Bound.IsBelow, Bound.IsAbove, FilterValue.UpTo]

theorem binary_literal_comparison (htype : field.type.isComparable = true) {family : Family}
    (hfamily : family.isComparison = true) :
    binary year bounds field family (literalOf L span) relation =
      (comparable year field.type L).map fun e => [comparisonFilter field family e] := by
  cases family with
  | gt | gte | lt | lte =>
    simp only [binary, htype, if_true]
    show (comparable year field.type L >>= _) = _
    cases comparable year field.type L <;> rfl
  | equal | similar => cases hfamily

theorem binary_range (htype : field.type.isComparable = true)
    (hl : comparable year field.type L = .ok l) (hm : comparable year field.type M = .ok m)
    (brackets : Option Brackets) :
    let included := brackets.getD ⟨bounds.includeBegin, bounds.includeEnd⟩
    binary year bounds field .equal (.range ⟨L, M, brackets⟩) relation =
      .ok [.range field (some (lowerBound included.includeBegin l))
        (some (upperBound included.includeEnd m))] := by
  simp only [binary, htype, if_true, rangeFilter, hl, hm, Understood.ok_bind]
  rfl

/-- A phrase is understood. -/
def IsAccepted (year : Int) (bounds : RangeBounds) (field : Field) (phrase : Phrase) : Prop :=
  ∃ fs, filters year bounds field phrase = .ok fs

/-- A phrase is understood, and some filter of it accepts the value. -/
def Selects (year : Int) (bounds : RangeBounds) (field : Field) (phrase : Phrase)
    (x : FilterValue) : Prop :=
  ∃ fs, filters year bounds field phrase = .ok fs ∧ ∃ f ∈ fs, f.Accepts x

theorem selects_iff {phrase : Phrase} {f : Filter}
    (h : filters year bounds field phrase = .ok [f]) :
    Selects year bounds field phrase x ↔ f.Accepts x := by
  constructor
  · rintro ⟨fs, hfs, g, hg, hx⟩
    obtain rfl := Except.ok.inj (h.symm.trans hfs)
    obtain rfl := List.mem_singleton.mp hg
    exact hx
  · exact fun hx => ⟨[f], h, f, List.mem_singleton_self f, hx⟩

theorem accepts_lower {b : Bound} :
    (Filter.range field (some b) none).Accepts x ↔ b.IsBelow x := by
  simp [Filter.Accepts]

theorem accepts_upper {b : Bound} :
    (Filter.range field none (some b)).Accepts x ↔ b.IsAbove x := by
  simp [Filter.Accepts]

theorem selects_equal (htype : field.type.isComparable = true)
    (hl : extent? year field.type L = .ok (some l)) :
    Selects year bounds field (phraseOf subject .equal (literalOf L span) relation whole) x ↔
      l.Has x := by
  obtain ⟨fs, hfs, haccepts⟩ : ∃ fs, filters year bounds field
      (phraseOf subject .equal (literalOf L span) relation whole) = .ok fs ∧
        ∀ x, (∃ f ∈ fs, f.Accepts x) ↔ l.Has x := by
    rw [filters_eq_binary htype]
    exact binary_literal_equal htype hl
  refine Iff.trans ⟨?_, fun hx => ⟨fs, hfs, hx⟩⟩ (haccepts x)
  rintro ⟨fs', hfs', hx⟩
  obtain rfl := Except.ok.inj (hfs.symm.trans hfs')
  exact hx

/-- A comparison with a literal takes no pattern, and asks for the filter of the literal. -/
theorem filters_comparison (htype : field.type.isComparable = true)
    (hl : extent? year field.type L = .ok (some l)) (hpattern : Value.isPattern L.joined = false)
    {family : Family} (hfamily : family.isComparison = true) :
    filters year bounds field (phraseOf subject family (literalOf L span) relation whole) =
      .ok [comparisonFilter field family l] := by
  rw [filters_eq_binary htype, binary_literal_comparison htype hfamily, comparable_eq hl hpattern]
  rfl

theorem isAccepted_comparison_iff (htype : field.type.isComparable = true)
    (hl : extent? year field.type L = .ok (some l)) {family : Family}
    (hfamily : family.isComparison = true) :
    IsAccepted year bounds field (phraseOf subject family (literalOf L span) relation whole) ↔
      Value.isPattern L.joined = false := by
  constructor
  · rintro ⟨fs, hfs⟩
    by_contra hpattern
    rw [filters_eq_binary htype, binary_literal_comparison htype hfamily,
      comparable_of_isPattern (by simpa using hpattern)] at hfs
    cases hfs
  · exact fun hpattern => ⟨_, filters_comparison htype hl hpattern hfamily⟩

theorem selects_lower (htype : field.type.isComparable = true)
    (hl : extent? year field.type L = .ok (some l)) (hpattern : Value.isPattern L.joined = false)
    (included : Bool) :
    Selects year bounds field (phraseOf subject (if included then .gte else .gt)
        (literalOf L span) relation whole) x ↔ (lowerBound included l).IsBelow x := by
  cases included with
  | true => exact (selects_iff (filters_comparison htype hl hpattern rfl)).trans accepts_lower
  | false => exact (selects_iff (filters_comparison htype hl hpattern rfl)).trans accepts_lower

theorem selects_upper (htype : field.type.isComparable = true)
    (hl : extent? year field.type L = .ok (some l)) (hpattern : Value.isPattern L.joined = false)
    (included : Bool) :
    Selects year bounds field (phraseOf subject (if included then .lte else .lt)
        (literalOf L span) relation whole) x ↔ (upperBound included l).IsAbove x := by
  cases included with
  | true => exact (selects_iff (filters_comparison htype hl hpattern rfl)).trans accepts_upper
  | false => exact (selects_iff (filters_comparison htype hl hpattern rfl)).trans accepts_upper

/-- What a range accepts lies on the right side of both its ends. -/
theorem selects_range (htype : field.type.isComparable = true)
    (hl : comparable year field.type L = .ok l) (hm : comparable year field.type M = .ok m)
    (brackets : Option Brackets) :
    let included := brackets.getD ⟨bounds.includeBegin, bounds.includeEnd⟩
    Selects year bounds field (phraseOf subject .equal (.range ⟨L, M, brackets⟩) relation whole) x ↔
      (lowerBound included.includeBegin l).IsBelow x ∧
        (upperBound included.includeEnd m).IsAbove x := by
  intro included
  have hfilters : filters year bounds field
      (phraseOf subject .equal (.range ⟨L, M, brackets⟩) relation whole) =
        .ok [.range field (some (lowerBound included.includeBegin l))
          (some (upperBound included.includeEnd m))] := by
    rw [filters_eq_binary htype]
    exact binary_range htype hl hm brackets
  refine (selects_iff hfilters).trans ?_
  simp [Filter.Accepts]

/-- What is greater than all values of a literal is not at most one of them, and the other way
round. -/
theorem forall_before_iff (htype : type.isComparable = true) (hl : l.IsProper type)
    (hx : x.IsOf type) : (∀ y, l.Has y → y.Before x) ↔ ¬ ∃ y, l.Has y ∧ x.UpTo y := by
  push Not
  refine forall_congr' fun y => imp_congr_right fun hy => ?_
  have hytype := hl.isOf_of_has hy
  rw [FilterValue.before_iff htype hytype hx, FilterValue.upTo_iff htype hx hytype, not_le]

theorem forall_after_iff (htype : type.isComparable = true) (hl : l.IsProper type)
    (hx : x.IsOf type) : (∀ y, l.Has y → x.Before y) ↔ ¬ ∃ y, l.Has y ∧ y.UpTo x := by
  push Not
  refine forall_congr' fun y => imp_congr_right fun hy => ?_
  have hytype := hl.isOf_of_has hy
  rw [FilterValue.before_iff htype hx hytype, FilterValue.upTo_iff htype hytype hx, not_le]

/-- **Comparisons mean what their literals mean.** A literal stands for one value or for a span of
values. An equality accepts just these. A comparison, which takes any literal but a pattern, accepts
what is greater or less than all of them, or at least or at most some of them; so of `>` and `<=`,
and of `<` and `>=`, just one accepts a value. A range accepts what two comparisons accept, which
depend on whether its ends are included. -/
theorem comparisons_mean {year : Int} {bounds : RangeBounds} {field : Field}
    (htype : field.type.isComparable = true) {L M : Path} {l m : Extent FilterValue}
    (hl : extent? year field.type L = .ok (some l)) (hm : extent? year field.type M = .ok (some m))
    (subject : Path) (span relation whole : Span) :
    let phrase := fun family predicate => phraseOf subject family predicate relation whole
    let meets := fun family path x =>
      Selects year bounds field (phrase family (literalOf path span)) x
    (∀ x, meets .equal L x ↔ l.Has x) ∧
    (∀ family, family.isComparison = true →
      (IsAccepted year bounds field (phrase family (literalOf L span)) ↔
        Value.isPattern L.joined = false)) ∧
    (Value.isPattern L.joined = false → ∀ x : FilterValue, x.IsOf field.type →
      (meets .gt L x ↔ ∀ y, l.Has y → y.Before x) ∧
      (meets .gte L x ↔ ∃ y, l.Has y ∧ y.UpTo x) ∧
      (meets .lt L x ↔ ∀ y, l.Has y → x.Before y) ∧
      (meets .lte L x ↔ ∃ y, l.Has y ∧ x.UpTo y) ∧
      (meets .gt L x ↔ ¬ meets .lte L x) ∧ (meets .lt L x ↔ ¬ meets .gte L x)) ∧
    (Value.isPattern L.joined = false → Value.isPattern M.joined = false →
      ∀ (brackets : Option Brackets) (x : FilterValue),
        let included := brackets.getD ⟨bounds.includeBegin, bounds.includeEnd⟩
        (Selects year bounds field (phrase .equal (.range ⟨L, M, brackets⟩)) x ↔
          meets (if included.includeBegin then .gte else .gt) L x ∧
            meets (if included.includeEnd then .lte else .lt) M x)) := by
  intro phrase meets
  have hproper := proper_of_extent? htype hl
  refine ⟨fun x => selects_equal htype hl,
    fun family hfamily => isAccepted_comparison_iff htype hl hfamily, ?_, ?_⟩
  · intro hpattern x hx
    have hlower (included : Bool) : meets (if included then .gte else .gt) L x ↔ _ :=
      (selects_lower htype hl hpattern included).trans
        (isBelow_lowerBound htype hproper hx included)
    have hupper (included : Bool) : meets (if included then .lte else .lt) L x ↔ _ :=
      (selects_upper htype hl hpattern included).trans
        (isAbove_upperBound htype hproper hx included)
    have hgt : meets .gt L x ↔ ∀ y, l.Has y → y.Before x := hlower false
    have hgte : meets .gte L x ↔ ∃ y, l.Has y ∧ y.UpTo x := hlower true
    have hlt : meets .lt L x ↔ ∀ y, l.Has y → x.Before y := hupper false
    have hlte : meets .lte L x ↔ ∃ y, l.Has y ∧ x.UpTo y := hupper true
    refine ⟨hgt, hgte, hlt, hlte, ?_, ?_⟩
    · rw [hgt, hlte]
      exact forall_before_iff htype hproper hx
    · rw [hlt, hgte]
      exact forall_after_iff htype hproper hx
  · intro hL hM brackets x included
    refine (selects_range htype (comparable_eq hl hL) (comparable_eq hm hM) brackets).trans ?_
    exact (and_congr (selects_lower htype hl hL _) (selects_upper htype hm hM _)).symm

end Phrases

/-- `2024-02`, as it is written. -/
def february : Path := ⟨⟨"2024-02", .word, .point 0⟩, []⟩

/-- All of February comes before March, and no day of it is behind all of it. -/
theorem comparisons_mean_february :
    let after := phraseOf february .gt (literalOf february (.point 0)) (.point 0) (.point 0)
    Selects 2026 .default .createTime after (.date ⟨2024, 3, 1, rfl⟩) ∧
      ¬ Selects 2026 .default .createTime after (.date ⟨2024, 2, 29, rfl⟩) := by
  intro after
  have hl : extent? 2026 .dateTime february =
      .ok (some (.span (.date ⟨2024, 2, 1, rfl⟩) (.date ⟨2024, 3, 1, rfl⟩))) := rfl
  obtain ⟨_, _, hcompared, _⟩ := @comparisons_mean 2026 .default .createTime rfl _ _ _ _ hl hl
    february (.point 0) (.point 0) (.point 0)
  constructor
  · exact (hcompared rfl _ ⟨_, rfl⟩).1.mpr fun y hy => hy.2
  · intro hselects
    have hall := (hcompared rfl _ ⟨_, rfl⟩).1.mp hselects
    have hself := hall (.date ⟨2024, 2, 29, rfl⟩) ⟨.inl rfl, rfl⟩
    cases hself

end Filtering

end PixQuery
