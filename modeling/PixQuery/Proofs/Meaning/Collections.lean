import PixQuery.Meaning.Filtering
import PixQuery.Proofs.Meaning.Understood
import PixQuery.Proofs.Value.FlagText

/-!
# Collections ask for what their members ask for

A literal that a field is equal to becomes one filter with one thing in it: a value, a pattern, a
span, or flags. A collection of literals is taken apart by these classes: all values stand in one
filter, all patterns in another, each span stays a filter of its own, and flags are joined to one
set.

Results:
* `Filtering.equal_eq_merge`: a collection is its members, merged.
* `Filtering.equal_singleton`: a literal alone becomes one filter with one thing in it.
* `Filtering.equal_collection`: nothing is lost, doubled or moved to another class, and what is
  wrong with a collection is what is wrong with the first member that something is wrong with.
-/

namespace PixQuery

open Query (Path)

/-! ## What filters of equality ask for -/

namespace Filter

/-- The values that a filter of equality lists. -/
def equals : Filter → List FilterValue
  | equal _ values => values
  | similar .. | range .. | flag _ | composition .. => []

/-- The patterns that a filter of similarity lists. -/
def patterns : Filter → List String
  | similar _ patterns => patterns
  | equal .. | range .. | flag _ | composition .. => []

/-- The filter itself, when it is a range. -/
def spans : Filter → List Filter
  | range field lower upper => [.range field lower upper]
  | equal .. | similar .. | flag _ | composition .. => []

/-- The flags that a filter asks for. -/
def flags : Filter → List Tagme
  | composition _ value => [value]
  | equal .. | similar .. | range .. | flag _ => []

/-- A filter on a field that asks for one thing. -/
inductive IsSingle (field : Field) : Filter → Prop
  | value (v : FilterValue) : IsSingle field (.equal field [v])
  | pattern (p : String) : IsSingle field (.similar field [p])
  | span (first stop : FilterValue) :
      IsSingle field (.range field (some ⟨first, true⟩) (some ⟨stop, false⟩))
  | flags (value : Tagme) : IsSingle field (.composition field value)

end Filter

namespace Filtering

variable {year : Int} {field : Field} {path : Path} {paths : List Path}

/-- One filter of all members of a list, or none without members. -/
def listed {α : Type} (make : List α → Filter) (members : List α) : List Filter :=
  if members.isEmpty then [] else [make members]

/-- One filter of the flags in some of the sets, or none without sets. -/
def Joins (field : Field) (sets : List Tagme) (filters : List Filter) : Prop :=
  (sets = [] ∧ filters = []) ∨ sets ≠ [] ∧ ∃ joined : Tagme, filters = [.composition field joined] ∧
    ∀ i, Flags.hasBit joined.bits i = true ↔ ∃ set ∈ sets, Flags.hasBit set.bits i = true

/-- The filters of single literals put together: the values in one filter, the patterns in the
next, the spans one by one, and the flags in one filter. -/
def IsMerged (field : Field) (each filters : List Filter) : Prop :=
  ∃ joined, Joins field (each.flatMap Filter.flags) joined ∧
    filters = listed (.equal field) (each.flatMap Filter.equals) ++
      listed (.similar field) (each.flatMap Filter.patterns) ++ each.flatMap Filter.spans ++ joined

/-! ## One literal -/

/-- The filter that a portion is when it stands alone. -/
def Portion.filter (field : Field) : Portion → Filter
  | value v => .equal field [v]
  | pattern p => .similar field [p]
  | span first stop => .range field (some ⟨first, true⟩) (some ⟨stop, false⟩)

/-- What a literal asks of a field. -/
def single (year : Int) (field : Field) (path : Path) : Understood Filter :=
  match field.type with
  | .number | .patternNumber | .size | .date | .dateTime =>
    (comparablePortion year field.type path).map (Portion.filter field)
  | .string => ((scalar path).map FilterValue.text).map fun v => .equal field [v]
  | .patternString => (textPortion path).map (Portion.filter field)
  | .composition => (flagOf path).map (.composition field)
  | .flag => .error ⟨.filterTakesNoValue field.displayName, path.range⟩

theorem Portion.isSingle_filter (q : Portion) : (q.filter field).IsSingle field := by
  cases q with
  | value v => exact .value v
  | pattern p => exact .pattern p
  | span first stop => exact .span first stop

/-- A literal asks for one thing. -/
theorem isSingle_of_single {f : Filter} (h : single year field path = .ok f) :
    f.IsSingle field := by
  unfold single at h
  split at h
  case h_6 =>
    obtain ⟨v, _, rfl⟩ := Understood.exists_of_map h
    exact .value v
  case h_8 =>
    obtain ⟨value, _, rfl⟩ := Understood.exists_of_map h
    exact .flags value
  case h_9 => cases h
  all_goals
    obtain ⟨q, _, rfl⟩ := Understood.exists_of_map h
    exact q.isSingle_filter

/-! ## Literals put together -/

/-- The filters of single literals, merged. -/
def merge (field : Field) (each : List Filter) : List Filter :=
  listed (.equal field) (each.flatMap Filter.equals) ++
    listed (.similar field) (each.flatMap Filter.patterns) ++ each.flatMap Filter.spans ++
    listed (fun sets => .composition field (Flags.unionAll sets)) (each.flatMap Filter.flags)

theorem isMerged_merge (each : List Filter) : IsMerged field each (merge field each) := by
  refine ⟨_, ?_, rfl⟩
  cases hsets : each.flatMap Filter.flags with
  | nil => exact .inl ⟨rfl, rfl⟩
  | cons set sets =>
    exact .inr ⟨List.cons_ne_nil set sets, _, rfl, Flags.hasBit_unionAll (set :: sets)⟩

theorem merge_singleton {f : Filter} (h : f.IsSingle field) : merge field [f] = [f] := by
  cases h with
  | value v => rfl
  | pattern p => rfl
  | span first stop => rfl
  | flags value =>
    have hunion : Flags.unionAll [value] = value := by
      show (⟨0 ||| value.bits⟩ : Tagme) = value
      rw [UInt32.zero_or]
    show [Filter.composition field (Flags.unionAll [value])] = _
    rw [hunion]

/-- Portions are gathered as the filters that they are when they stand alone are merged. -/
theorem gather_eq_merge (portions : List Portion) :
    gather field portions = merge field (portions.map (Portion.filter field)) := by
  have hclass : ∀ {α : Type} (members : Filter → List α) (member? : Portion → Option α),
      (∀ q : Portion, members (q.filter field) = (member? q).toList) →
      (portions.map (Portion.filter field)).flatMap members = portions.filterMap member? := by
    intro α members member? h
    rw [List.flatMap_map, List.filterMap_eq_flatMap_toList]
    exact congrArg (List.flatMap · portions) (funext h)
  have hvalues := hclass Filter.equals Portion.value? fun q => by cases q <;> rfl
  have hpatterns := hclass Filter.patterns Portion.pattern? fun q => by cases q <;> rfl
  have hspans := hclass Filter.spans (Portion.span? field) fun q => by cases q <;> rfl
  have hflags := hclass Filter.flags (fun _ => none) fun q => by cases q <;> rfl
  rw [merge, hvalues, hpatterns, hspans, hflags, List.filterMap_none]
  exact (List.append_nil _).symm

section Uniform

variable {α β : Type} {alone : α → Filter}

/-- Filters that ask for one thing each ask together for all of these. -/
theorem flatMap_own (members : Filter → List α) (h : ∀ a, members (alone a) = [a]) (as : List α) :
    (as.map alone).flatMap members = as := by
  rw [List.flatMap_map, funext h]
  exact List.flatMap_singleton' as

theorem flatMap_other (members : Filter → List β) (h : ∀ a, members (alone a) = []) (as : List α) :
    (as.map alone).flatMap members = [] := by
  rw [List.flatMap_map, funext h]
  exact List.flatMap_eq_nil_iff.mpr fun _ _ => rfl

end Uniform

theorem merge_values {values : List FilterValue} (hne : values ≠ []) :
    merge field (values.map fun v => .equal field [v]) = [.equal field values] := by
  rw [merge, flatMap_own Filter.equals fun _ => rfl, flatMap_other Filter.patterns fun _ => rfl,
    flatMap_other Filter.spans fun _ => rfl, flatMap_other Filter.flags fun _ => rfl, listed,
    if_neg (mt List.isEmpty_iff.mp hne)]
  rfl

theorem merge_flags {sets : List Tagme} (hne : sets ≠ []) :
    merge field (sets.map (.composition field)) = [.composition field (Flags.unionAll sets)] := by
  rw [merge, flatMap_other Filter.equals fun _ => rfl, flatMap_other Filter.patterns fun _ => rfl,
    flatMap_other Filter.spans fun _ => rfl, flatMap_own Filter.flags fun _ => rfl, listed, listed,
    listed, if_neg (mt List.isEmpty_iff.mp hne)]
  rfl

theorem gather_mapM (portion : Path → Understood Portion) (paths : List Path) :
    (do return gather field (← paths.mapM portion)) =
      (paths.mapM fun p => (portion p).map (Portion.filter field)).map (merge field) := by
  rw [Understood.mapM_map]
  cases paths.mapM portion with
  | error fault => rfl
  | ok portions => exact congrArg Except.ok (gather_eq_merge portions)

/-- Literals of one class become one filter, unless there are none. -/
theorem whole_mapM {α : Type} {alone : α → Filter} {whole : List α → Filter}
    (hwhole : ∀ as : List α, as ≠ [] → merge field (as.map alone) = [whole as])
    (member : Path → Understood α) (path : Path) (paths : List Path) :
    (do return [whole (← (path :: paths).mapM member)]) =
      ((path :: paths).mapM fun p => (member p).map alone).map (merge field) := by
  rw [Understood.mapM_map]
  cases hpaths : (path :: paths).mapM member with
  | error fault => rfl
  | ok as => exact congrArg Except.ok (hwhole as (Understood.ne_nil_of_mapM hpaths)).symm

/-- **A collection** is its members, merged. -/
theorem equal_eq_merge (year : Int) (field : Field) (paths : List Path) :
    equal year field paths = (paths.mapM (single year field)).map (merge field) := by
  cases paths with
  | nil => rfl
  | cons path paths =>
    unfold equal single
    cases htype : field.type with
    | number => exact gather_mapM _ _
    | patternNumber => exact gather_mapM _ _
    | size => exact gather_mapM _ _
    | date => exact gather_mapM _ _
    | dateTime => exact gather_mapM _ _
    | string => exact whole_mapM (fun _ => merge_values) _ path paths
    | patternString => exact gather_mapM _ _
    | composition => exact whole_mapM (fun _ => merge_flags) _ path paths
    | flag => rfl

/-- **A literal alone** becomes one filter. -/
theorem equal_singleton (year : Int) (field : Field) (path : Path) :
    equal year field [path] = (single year field path).map fun f => [f] := by
  have hone : [path].mapM (single year field) = (single year field path).map fun f => [f] := by
    rw [List.mapM_cons]
    cases single year field path <;> rfl
  rw [equal_eq_merge, hone]
  cases hf : single year field path with
  | error fault => rfl
  | ok f => exact congrArg Except.ok (merge_singleton (isSingle_of_single hf))

/-- **A collection of literals** that a field is equal to, of any type. It is at fault exactly when
one of the literals alone is, with the fault of the first. Otherwise each literal alone becomes one
filter with one thing in it, and these filters together are what the collection becomes: one filter
of all values, one of all patterns, the spans, and the flags in one set, without what there is none
of. No literals are no filters. -/
theorem equal_collection (year : Int) (field : Field) (paths : List Path) :
    equal year field [] = .ok [] ∧
    (∀ fault, equal year field paths = .error fault ↔ ∃ before path after,
      paths = before ++ path :: after ∧
        (∀ p ∈ before, ∃ filters, equal year field [p] = .ok filters) ∧
        equal year field [path] = .error fault) ∧
    ∀ filters, equal year field paths = .ok filters → ∃ each,
      List.Forall₂ (fun path f => f.IsSingle field ∧ equal year field [path] = .ok [f]) paths each ∧
        IsMerged field each filters := by
  have hfault : ∀ {path fault}, equal year field [path] = .error fault ↔
      single year field path = .error fault := by
    intro path fault
    rw [equal_singleton, Understood.map_eq_error_iff]
  have hok : ∀ {path}, (∃ filters, equal year field [path] = .ok filters) ↔
      ∃ f, single year field path = .ok f := by
    intro path
    rw [equal_singleton]
    constructor
    · rintro ⟨filters, h⟩
      obtain ⟨f, hf, _⟩ := Understood.exists_of_map h
      exact ⟨f, hf⟩
    · rintro ⟨f, hf⟩
      exact ⟨[f], by rw [hf]; rfl⟩
  refine ⟨rfl, fun fault => ?_, fun filters h => ?_⟩
  · simp only [hfault, hok]
    rw [equal_eq_merge, Understood.map_eq_error_iff, Understood.mapM_eq_error_iff]
  · rw [equal_eq_merge] at h
    obtain ⟨each, heach, rfl⟩ := Understood.exists_of_map h
    refine ⟨each, ?_, isMerged_merge each⟩
    refine (Understood.mapM_eq_ok_iff.mp heach).imp fun path f hf => ?_
    exact ⟨isSingle_of_single hf, by rw [equal_singleton, hf]; rfl⟩

end Filtering

end PixQuery
