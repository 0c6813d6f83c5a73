import PixQuery.Meaning.Sequence

/-!
# From relations to filters

What a relation on a field asks for depends on the type of the field. Values of a collection become
one filter of equal values, one of patterns, and one for each literal that stands for a span. A
comparison with such a literal compares with the end that keeps all of it on the right side.

In the program these are `filter`, `equal`, `range`, `complex` and `comparable` of the `Analyzer`.
-/

namespace PixQuery

open Query (Path Value Predicate Phrase Relation Family RangeLiteral)

namespace Filtering

/-- The only value of a list, with nothing before it (`no_prefix` and `single_value`). -/
def singleValue (field : String) (values : List Value) : Understood Path :=
  match values with
  | [v] => if v.isBare then .ok v.path else .error ⟨.valuePrefixNotAllowed, v.range⟩
  | vs => .error ⟨.filterShape field .list, (vs.head?.map Value.range).getD (.point 0)⟩

/-- The value of a path of one part (`scalar_text`). -/
def scalar (path : Path) : Understood String :=
  match path.single? with
  | some part => .ok part.value
  | none => .error ⟨.addressAsValue, path.range⟩

/-- The same for both ends of a span. -/
def Extent.map {α β : Type} (f : α → β) : Extent α → Extent β
  | .one a => .one (f a)
  | .span a b => .span (f a) (f b)

/-- What a literal stands for, or nothing for a pattern of digits (`complex`). Sizes and dates may
hold points; numbers may not. -/
def extent? (year : Int) (type : FieldType) (path : Path) :
    Understood (Option (Extent FilterValue)) :=
  match type with
  | .size => do return some (.one (.size (← Value.size path.joined path.range)))
  | .date | .dateTime => do
    return some (Extent.map .date (← Value.date year path.joined path.range))
  | .patternNumber => do
    match ← Value.patternNumber (← scalar path) path.range with
    | .extent e => return some (Extent.map .number e)
    | .pattern _ => return none
  | .flag | .number | .string | .patternString | .composition => do
    return some (.one (.number (← Value.number (← scalar path) path.range)))

/-- What a literal stands for that something is compared with: no pattern. -/
def comparable (year : Int) (type : FieldType) (path : Path) :
    Understood (Extent FilterValue) :=
  if Value.isPattern path.joined then .error ⟨.patternInComparison, path.range⟩
  else do
    match ← extent? year type path with
    | some e => return e
    | none => .error ⟨.patternInComparison, path.range⟩

/-! ## Equality -/

/-- The filter of equal values, if there are any. -/
def equalFilter (field : Field) (values : List FilterValue) : List Filter :=
  if values.isEmpty then [] else [.equal field values]

/-- The filter of patterns, if there are any. -/
def similarFilter (field : Field) (patterns : List String) : List Filter :=
  if patterns.isEmpty then [] else [.similar field patterns]

/-- What a literal becomes in a filter of equality. -/
inductive Portion where
  | value (value : FilterValue)
  | pattern (pattern : String)
  | span (first stop : FilterValue)

/-- The value of a portion. -/
def Portion.value? : Portion → Option FilterValue
  | value v => some v
  | pattern _ | span .. => none

/-- The pattern of a portion. -/
def Portion.pattern? : Portion → Option String
  | pattern p => some p
  | value _ | span .. => none

/-- The filter of a span. -/
def Portion.span? (field : Field) : Portion → Option Filter
  | span first stop => some (.range field (some ⟨first, true⟩) (some ⟨stop, false⟩))
  | value _ | pattern _ => none

/-- The filters of all portions: values, patterns, and each span (the end of `equal`). -/
def gather (field : Field) (portions : List Portion) : List Filter :=
  equalFilter field (portions.filterMap Portion.value?) ++
    similarFilter field (portions.filterMap Portion.pattern?) ++
    portions.filterMap (Portion.span? field)

/-- What a literal of a comparable type becomes (a value in `equal`). -/
def comparablePortion (year : Int) (type : FieldType) (path : Path) : Understood Portion := do
  match ← extent? year type path with
  | some (.one v) => return .value v
  | some (.span first stop) => return .span first stop
  | none => return .pattern (← scalar path)

/-- What a text becomes: the very text between backticks, a pattern otherwise (a text in
`equal`). -/
def textPortion (path : Path) : Understood Portion := do
  let text ← scalar path
  match path.single?.map Query.Part.kind with
  | some .backticks => return .value (.text text)
  | _ => return .pattern text

/-- The flag that a name means. -/
def flagOf (path : Path) : Understood Tagme := do Value.tagme (← scalar path) path.range

/-- The filters of a field that has one of some values; without values there are none. -/
def equal (year : Int) (field : Field) (paths : List Path) : Understood (List Filter) :=
  match paths with
  | [] => .ok []
  | path :: _ =>
    match field.type with
    | .number | .patternNumber | .size | .date | .dateTime => do
      return gather field (← paths.mapM (comparablePortion year field.type))
    | .string => do return [.equal field (← paths.mapM fun p => do return .text (← scalar p))]
    | .patternString => do return gather field (← paths.mapM textPortion)
    | .composition => do return [.composition field (Flags.unionAll (← paths.mapM flagOf))]
    | .flag => .error ⟨.filterTakesNoValue field.displayName, path.range⟩

/-! ## Ranges and comparisons -/

/-- The lower bound that an end of a range gives: what the end stands for is inside when it is
included, and outside otherwise. -/
def lowerBound (included : Bool) : Extent FilterValue → Bound
  | .one v => ⟨v, included⟩
  | .span first stop => ⟨if included then first else stop, true⟩

/-- The upper bound that an end of a range gives. -/
def upperBound (included : Bool) : Extent FilterValue → Bound
  | .one v => ⟨v, included⟩
  | .span first stop => ⟨if included then stop else first, false⟩

/-- The filter of a range (`range`). -/
def rangeFilter (year : Int) (bounds : RangeBounds) (field : Field) (literal : RangeLiteral) :
    Understood Filter := do
  let brackets := literal.brackets.getD ⟨bounds.includeBegin, bounds.includeEnd⟩
  let first ← comparable year field.type literal.first
  let last ← comparable year field.type literal.last
  return .range field (some (lowerBound brackets.includeBegin first))
    (some (upperBound brackets.includeEnd last))

/-- The filter of a comparison with a literal. -/
def comparisonFilter (field : Field) (family : Family) (e : Extent FilterValue) : Filter :=
  match family with
  | .gt => .range field (some (lowerBound false e)) none
  | .gte => .range field (some (lowerBound true e)) none
  | .lt => .range field none (some (upperBound false e))
  | .lte | .equal | .similar => .range field none (some (upperBound true e))

/-! ## Phrases -/

/-- The patterns that a relation of similarity names. -/
def patterns (field : Field) (family : Family) (range : Span) :
    Predicate → Understood (List String)
  | .values values => do return [← scalar (← singleValue field.displayName values)]
  | .collection paths => paths.mapM scalar
  | .range _ => .error ⟨.filterShapeOfRelation field.displayName .range family.spelling, range⟩

/-- The filters of a binary relation on a field that takes values (the table of `filter`). -/
def binary (year : Int) (bounds : RangeBounds) (field : Field) (family : Family)
    (predicate : Predicate) (range : Span) : Understood (List Filter) :=
  let name := field.displayName
  let shape := Sequence.shapeOf predicate
  if shape = .list then .error ⟨.filterShape name shape, range⟩
  else
    match family with
    | .equal =>
      match predicate with
      | .values values => do equal year field [← singleValue name values]
      | .collection paths => equal year field paths
      | .range literal =>
        if field.type.isComparable then do return [← rangeFilter year bounds field literal]
        else .error ⟨.filterShape name shape, range⟩
    | .similar =>
      if field.type.isMatchable then do
        return similarFilter field (← patterns field family range predicate)
      else .error ⟨.filterRelation name family.spelling, range⟩
    | .gt | .gte | .lt | .lte =>
      if field.type.isComparable then
        match predicate with
        | .values values => do
          let e ← comparable year field.type (← singleValue name values)
          return [comparisonFilter field family e]
        | .collection _ | .range _ =>
          .error ⟨.filterShapeOfRelation name shape family.spelling, range⟩
      else .error ⟨.filterRelation name family.spelling, range⟩

/-- The filters of a phrase about a field (`filter`). -/
def filters (year : Int) (bounds : RangeBounds) (field : Field) (phrase : Phrase) :
    Understood (List Filter) :=
  let name := field.displayName
  match phrase.relation with
  | some (.unary direction range) =>
    .error ⟨.filterRelation name (Relation.unary direction range).spelling, range⟩
  | none =>
    match field.type with
    | .flag | .composition => .ok [.flag field]
    | .number | .patternNumber | .size | .date | .dateTime | .string | .patternString =>
      .error ⟨.filterNeedsValue name, phrase.range⟩
  | some (.binary family predicate range) =>
    if field.type = .flag then .error ⟨.filterTakesNoValue name, range⟩
    else binary year bounds field family predicate range

end Filtering

end PixQuery
