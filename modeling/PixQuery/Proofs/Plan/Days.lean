import PixQuery.Proofs.Plan.Recompiling
import PixQuery.Proofs.Token.Settled

/-!
# Days in the query of a plan

A plan that compares fields with days is written as a query and compiled again. No option of the
lexer matters, since days and the names of their fields are settled, and no current year matters,
since a day is written with its year. What matters is the sign of the year: a minus in front of it
is read as a separator, so that the days before the year zero do not come back.

Results:
* `Plan.IsOfDays.lex_query`: the query of a plan of days is cut alike under all options.
* `Plan.compile_query_days`: when such a plan comes back from its query.
-/

namespace PixQuery

/-! ## Filters of days -/

instance : DecidablePred FilterValue.IsReadable
  | .date d => inferInstanceAs (Decidable (0 ≤ d.year))
  | .number _ | .size _ | .text _ => inferInstanceAs (Decidable True)

instance (p : Plan) : Decidable p.IsReadable :=
  inferInstanceAs (Decidable (∀ g ∈ p.filters, ∀ f ∈ g.union, ∀ v ∈ f.values, v.IsReadable))

/-- The values of the field are days. -/
def Field.HoldsDays (f : Field) : Prop := f.type = .date ∨ f.type = .dateTime

instance : DecidablePred Field.HoldsDays := fun _ => inferInstanceAs (Decidable (_ ∨ _))

/-- A filter that compares a field with days: it is one of some days, or lies between two, or on one
side of one. -/
inductive Filter.ComparesDays : Filter → Prop
  | equal {field : Field} {days : List Date} (hfield : field.HoldsDays) (hdays : days ≠ []) :
    ComparesDays (.equal field (days.map .date))
  | range {field : Field} {lower upper : Option Bound} (hfield : field.HoldsDays)
    (hsome : lower.isSome ∨ upper.isSome)
    (hdays : ∀ b ∈ lower.toList ++ upper.toList, ∃ d, b.value = .date d) :
    ComparesDays (.range field lower upper)

namespace Filter.ComparesDays

variable {f : Filter}

theorem holdsDays (h : f.ComparesDays) : f.field.HoldsDays := by
  cases h with
  | equal hfield => exact hfield
  | range hfield => exact hfield

theorem exists_day (h : f.ComparesDays) : ∀ v ∈ f.values, ∃ d, v = .date d := by
  intro v hv
  cases h with
  | equal =>
    obtain ⟨d, _, rfl⟩ := List.mem_map.mp hv
    exact ⟨d, rfl⟩
  | range _ _ hdays =>
    obtain ⟨b, hb, rfl⟩ := List.mem_map.mp hv
    exact hdays b hb

/-- It may be understood from a query, in some year. -/
theorem answers (h : f.ComparesDays) : Filtering.Answers (-1) f.field f where
  about := rfl
  values v hv := by
    obtain ⟨d, rfl⟩ := h.exists_day v hv
    exact ⟨h.holdsDays, fun hyear => absurd hyear (by decide)⟩
  allowed := by
    cases h with
    | equal _ hdays => exact mt List.map_eq_nil_iff.mp hdays
    | @range field _ _ hfield hsome =>
      have hcomparable : field.type.isComparable = true := by
        rcases hfield with htype | htype <;> rw [htype] <;> rfl
      exact ⟨hcomparable, hsome⟩

theorem isReadable_iff (h : f.ComparesDays) :
    f.IsReadable ↔ ∀ d, .date d ∈ f.values → 0 ≤ d.year := by
  constructor
  · exact fun hr d hd => hr (.date d) hd
  · intro hyears v hv
    obtain ⟨d, rfl⟩ := h.exists_day v hv
    exact hyears d hv

end Filter.ComparesDays

/-! ## Their queries are settled -/

theorem isSettledText_date (d : Date) : IsSettledText d.text := by
  have hdigits : ∀ width n, ∀ c ∈ Date.digits width n, IsSettled c := by
    intro width n c hc
    have hdigit := Value.isDigit_of_mem_digits hc
    have hle : c.toNat ≤ 57 := by
      simp only [Char.isDigit, Bool.and_eq_true, decide_eq_true_eq] at hdigit
      exact hdigit.2
    exact ⟨by omega, fun hline => absurd hle (hline ▸ by decide)⟩
  intro c hc
  rw [Date.text, String.toList_ofList] at hc
  simp only [List.mem_append, List.mem_cons] at hc
  rcases hc with ((hc | hc) | rfl | hc) | rfl | hc
  · split at hc
    · obtain rfl := List.mem_singleton.mp hc
      decide
    · cases hc
  · exact hdigits _ _ c hc
  · decide
  · exact hdigits _ _ c hc
  · decide
  · exact hdigits _ _ c hc

theorem isSettledText_plainName {field : Field} (h : field.HoldsDays) :
    IsSettledText field.plainName := by
  revert h
  cases field <;> decide

theorem isSettledText_oneOrCollection {ts : List String} (h : ∀ t ∈ ts, IsSettledText t) :
    IsSettledText (oneOrCollection ts) := by
  have hmany : IsSettledText ("\x7b" ++ ", ".intercalate ts ++ "\x7d") :=
    (IsSettledText.append (by decide) (.intercalate (by decide) h)).append (by decide)
  match ts with
  | [] => exact hmany
  | [t] => exact h t List.mem_cons_self
  | _ :: _ :: _ => exact hmany

theorem isSettledText_day (field : Field) (d : Date) :
    IsSettledText (FilterValue.query field (.date d)) :=
  (isSettledText_date d).quotedIfNeeded (by decide)

theorem isSettledText_boundsQuery (field : Field) {lower upper : Option Bound}
    (h : ∀ b ∈ lower.toList ++ upper.toList, ∃ d, b.value = .date d) :
    IsSettledText (boundsQuery field lower upper) := by
  have hvalue : ∀ b ∈ lower.toList ++ upper.toList, IsSettledText (b.value.query field) := by
    intro b hb
    obtain ⟨d, hd⟩ := h b hb
    rw [hd]
    exact isSettledText_day field d
  match lower, upper with
  | none, none => exact (by decide : IsSettledText "")
  | some b, none => exact (IsSettledText.ite (by decide) (by decide)).append (hvalue b (by simp))
  | none, some e => exact (IsSettledText.ite (by decide) (by decide)).append (hvalue e (by simp))
  | some b, some e =>
    have hopen : IsSettledText (":" ++ if b.inclusive then "[" else "(") :=
      .append (by decide) (.ite (by decide) (by decide))
    have hclose : IsSettledText (if e.inclusive then "]" else ")") := .ite (by decide) (by decide)
    exact (((hopen.append (hvalue b (by simp))).append (by decide)).append
      (hvalue e (by simp))).append hclose

theorem Filter.ComparesDays.isSettledText {f : Filter} (h : f.ComparesDays) :
    IsSettledText f.query := by
  cases h with
  | @equal field days hfield =>
    refine ((isSettledText_plainName hfield).append (by decide)).append
      (isSettledText_oneOrCollection fun t ht => ?_)
    rw [List.map_map] at ht
    obtain ⟨d, _, rfl⟩ := List.mem_map.mp ht
    exact isSettledText_day field d
  | @range field lower upper hfield _ hdays =>
    exact (isSettledText_plainName hfield).append (isSettledText_boundsQuery field hdays)

/-! ## Plans of days -/

namespace Plan

/-- The plan has nothing but filters, all of which compare fields with days. -/
structure IsOfDays (p : Plan) : Prop where
  sorts : p.sorts = []
  elements : p.elements = []
  members : ∀ g ∈ p.filters, g.union ≠ []
  filters : ∀ g ∈ p.filters, ∀ f ∈ g.union, f.ComparesDays

namespace IsOfDays

variable {p : Plan}

theorem isSettledText (h : p.IsOfDays) : IsSettledText p.query := by
  obtain ⟨sorts, elements, filters⟩ := p
  obtain ⟨rfl, rfl, _, hfilters⟩ := h
  refine .intercalate (by decide) fun t ht => ?_
  obtain ⟨g, hg, rfl⟩ := List.mem_map.mp (show t ∈ filters.map FilterGroup.query from ht)
  have hexclusion : IsSettledText (exclusion g.exclude) := by
    cases g.exclude <;> decide
  refine hexclusion.append (.intercalate (by decide) fun s hs => ?_)
  obtain ⟨f, hf, rfl⟩ := List.mem_map.mp hs
  exact (hfilters g hg f hf).isSettledText

theorem isTyped (h : p.IsOfDays) : p.IsTyped (fun k e => e.kind = k) (-1) := by
  obtain ⟨sorts, elements, filters⟩ := p
  obtain ⟨rfl, rfl, hmembers, hfilters⟩ := h
  exact ⟨.nil, ⟨.nil, nofun, nofun⟩, fun g hg =>
    ⟨hmembers g hg, fun f hf => (hfilters g hg f hf).answers⟩⟩

/-- No day in the plan lies before the year zero. -/
theorem isReadable_iff (h : p.IsOfDays) : p.IsReadable ↔
    ∀ g ∈ p.filters, ∀ f ∈ g.union, ∀ d, .date d ∈ f.values → 0 ≤ d.year :=
  forall₂_congr fun g hg => forall₂_congr fun f hf => (h.filters g hg f hf).isReadable_iff

theorem union_ne_nil (h : p.IsOfDays) : ∀ g ∈ p.elements, ∀ i ∈ g.items, i.union ≠ [] := by
  rw [h.elements]
  exact nofun

theorem lex_query (h : p.IsOfDays) (o : LexicalOptions) : lex o p.query = lex default p.query :=
  lex_of_isSettled h.isSettledText o default

theorem result_compile_query {lookup : Lookup} {options : CompilerOptions}
    {clock : Int} (h : p.IsOfDays)
    (hr : p.IsReadable) :
      ((Compiler.ofOptions options).compile lookup p.query clock).result = some p := by
  rw [result_compile_query_of_lex (h.lex_query _) (fun _ he => he) h.isTyped h.union_ne_nil hr,
    h.elements]
  obtain ⟨sorts, elements, filters⟩ := p
  obtain ⟨rfl, rfl, _, _⟩ := h
  rfl

theorem isReadable_of_compile_query {lookup : Lookup} {options : CompilerOptions}
    {clock : Int} {q : Plan} (h : p.IsOfDays)
    (hq : ((Compiler.ofOptions options).compile lookup p.query clock).result = some q) :
    p.IsReadable :=
  isReadable_of_compile_query_of_lex (h.lex_query _) (fun _ he => he) h.isTyped h.union_ne_nil hq

end IsOfDays

/-- **A plan of days comes back** from the query that it is written as just when no day in it lies
before the year zero; if one does, nothing comes back. This holds for each day by itself too. -/
theorem compile_query_days {p : Plan} (h : p.IsOfDays) (lookup : Lookup)
    (options : CompilerOptions) (clock : Int) :
    (∀ (d : Date) (currentYear : Int) (range : Span), Value.date currentYear d.text range =
      if 0 ≤ d.year then .ok (.one d) else .error (Value.castFault d.text "date" range)) ∧
    ∀ q, ((Compiler.ofOptions options).compile lookup p.query clock).result = some q ↔
      q = p ∧ ∀ g ∈ p.filters, ∀ f ∈ g.union, ∀ d, .date d ∈ f.values → 0 ≤ d.year := by
  refine ⟨Value.date_text, fun q => ?_⟩
  rw [← h.isReadable_iff]
  constructor
  · intro hq
    have hr := h.isReadable_of_compile_query hq
    rw [h.result_compile_query hr] at hq
    exact ⟨(Option.some.inj hq).symm, hr⟩
  · rintro ⟨rfl, hr⟩
    exact h.result_compile_query hr

/-- Images of one of two days in the first years that are counted, or made since the end of the year
987. -/
def earlyDays : Plan :=
  ⟨[], [], [⟨false, [.equal .partition ([⟨7, 1, 2, rfl⟩, ⟨0, 2, 29, rfl⟩].map .date),
    .range .createTime (some ⟨.date ⟨987, 12, 31, rfl⟩, true⟩) none]⟩]⟩

/-- Options that change how texts are cut, in a year before the year zero. -/
def remoteOptions : CompilerOptions :=
  { CompilerOptions.default with lexical := ⟨true, true⟩, currentYear := some (-5) }

theorem isOfDays_earlyDays : earlyDays.IsOfDays where
  sorts := rfl
  elements := rfl
  members := by decide
  filters g hg f hf := by
    obtain rfl := List.mem_singleton.mp hg
    rcases List.mem_cons.mp hf with rfl | hf
    · exact .equal (by decide) (List.cons_ne_nil _ _)
    · obtain rfl := List.mem_singleton.mp hf
      refine .range (by decide) (.inl rfl) fun b hb => ?_
      obtain rfl := List.mem_singleton.mp hb
      exact ⟨_, rfl⟩

theorem compile_query_earlyDays :
    earlyDays.query = "partition:\x7b0007-01-02, 0000-02-29\x7d|create>=0987-12-31" ∧
      earlyDays.IsOfDays ∧
      ((Compiler.ofOptions remoteOptions).compile .empty earlyDays.query 2021).result =
        some earlyDays := by
  refine ⟨by decide, isOfDays_earlyDays, ?_⟩
  refine ((compile_query_days isOfDays_earlyDays .empty remoteOptions 2021).2
    earlyDays).mpr ⟨rfl, ?_⟩
  exact isOfDays_earlyDays.isReadable_iff.mp (by decide)

/-- The second day of a year before the year zero. -/
def remoteDay : Date := ⟨-5, 1, 2, rfl⟩

/-- Images of that day. -/
def ofRemoteDay : Plan := ⟨[], [], [⟨false, [.equal .partition ([remoteDay].map .date)]⟩]⟩

theorem isOfDays_ofRemoteDay : ofRemoteDay.IsOfDays where
  sorts := rfl
  elements := rfl
  members := by decide
  filters g hg f hf := by
    obtain rfl := List.mem_singleton.mp hg
    obtain rfl := List.mem_singleton.mp hf
    exact .equal (by decide) (List.cons_ne_nil _ _)

/-- The tokens of `partition:1-2`. -/
def dayTokens : List Token :=
  [⟨.string "partition" .word, .between 0 9⟩, ⟨.symbol .colon, .between 9 10⟩,
    ⟨.string "1-2" .word, .between 10 13⟩]

/-- The tree of `partition:1-2`. -/
def dayTree : Tree :=
  match dayTokens.map Tree.leaf with
  | [partition, colon, day] =>
    spine [(1, "SEQUENCE"), (4, "SEQUENCE_ITEM"), (8, "ELEMENT"), (13, "ELEMENT_ITEM")]
      (Query.nodeOf 17 "SFP" [spine [(18, "SUBJECT"), (28, "STRING")] partition,
        spine [(19, "FAMILY")] colon,
        spine [(25, "PREDICATIVE"), (30, "VALUE_LIST"), (32, "VALUE"), (28, "STRING")] day])
  | _ => default

theorem derived_dayTree : Query.Derived (.nonterminal "SEQUENCE") dayTokens dayTree where
  derivation := by decide
  located := by
    simp [dayTree, dayTokens, spine, Query.nodeOf, Tree.Located, Tree.AllLocated]
  tokens := rfl
  symbol := rfl

/-- The day can be asked for in its year, where it needs no sign. -/
theorem compile_dayText :
    ((Compiler.ofOptions remoteOptions).compile .empty "partition:1-2" 2021).result =
      some ofRemoteDay := by
  have hlex : lex ⟨true, true⟩ "partition:1-2" = ⟨some dayTokens, [], []⟩ := by decide +kernel
  have hgrammar : (Compiler.ofOptions remoteOptions).grammar = Query.grammar := by
    simp only [Compiler.ofOptions]
  have hparse := Query.parse_eq_of_derived derived_dayTree
  rw [← hgrammar] at hparse
  rw [Compiler.result_compile hlex hparse]
  decide

/-- A day of the year -5 has a place in documents and can be asked for, but is not read from its
text, and the plan that holds it is written as a query that does not compile. -/
theorem not_compile_query_remoteDay :
    Date.ofText? remoteDay.text = some remoteDay ∧
      (∀ currentYear range,
        Value.date currentYear remoteDay.text range ≠ .ok (.one remoteDay)) ∧
      ((Compiler.ofOptions remoteOptions).compile .empty "partition:1-2" 2021).result =
        some ofRemoteDay ∧
      ofRemoteDay.query = "partition:\x27-0005-01-02\x27" ∧
      ((Compiler.ofOptions remoteOptions).compile .empty ofRemoteDay.query 2021).result = none := by
  refine ⟨Date.ofText?_text remoteDay, fun currentYear range h => ?_, compile_dayText,
    by decide, ?_⟩
  · rw [Value.date_text, if_neg (by decide)] at h
    cases h
  · refine Option.eq_none_iff_forall_ne_some.mpr fun q hq => ?_
    exact absurd (isOfDays_ofRemoteDay.isReadable_of_compile_query hq) (by decide)

end Plan

end PixQuery
