import PixQuery.Proofs.Meaning.Scopes
import PixQuery.Proofs.Query.Ranges

/-!
# Where the faults of a meaning stand

An item that is not understood has a fault at a part of it: a path, a value, a relation, a phrase or
all of the item. So what is wrong with an item lies inside the range of its node, and nothing falls
back to the beginning of the text.

Results:
* `Understood.Within.bind`, `Understood.Within.mapM`: faults of steps are those of each step.
* `Sequence.faultsIn_members`, `Filtering.faultsIn_filters`, `faultsIn_resolve`: what is wrong with
  a phrase lies where the phrase does.
* `Analysis.standsIn_analyzeItem`: warnings, faults and clauses of an item lie where the item does.
* `Analysis.within_foldl_addItem`: so do those of all items of a query.
-/

namespace PixQuery

open Query (Path Value Predicate Relation Phrase Family Item Stands)

/-! ## Faults inside a span -/

namespace Understood

variable {α β : Type} {s : Span} {P : α → Prop} {Q : β → Prop} {x : Understood α}

/-- What is understood has a property, or else the fault lies inside the span. -/
def Within (s : Span) (P : α → Prop) : Understood α → Prop
  | .ok a => P a
  | .error fault => fault.range.LiesIn s

/-- If there is a fault, it lies inside the span. -/
abbrev FaultsIn (s : Span) (x : Understood α) : Prop := Within s (fun _ => True) x

theorem Within.mono {Q : α → Prop} (h : Within s P x) (hPQ : ∀ a, P a → Q a) : Within s Q x := by
  cases x with
  | ok a => exact hPQ a h
  | error fault => exact h

theorem Within.faultsIn (h : Within s P x) : FaultsIn s x := h.mono fun _ _ => trivial

theorem Within.map {f : α → β} (h : Within s P x) (hf : ∀ a, P a → Q (f a)) :
    Within s Q (x.map f) := by
  cases x with
  | ok a => exact hf a h
  | error fault => exact h

theorem Within.bind {f : α → Understood β} (h : Within s P x)
    (hf : ∀ a, P a → Within s Q (f a)) : Within s Q (x >>= f) := by
  cases x with
  | ok a => exact hf a h
  | error fault => exact h

/-- The faults of a row of parts are those of each part. -/
theorem Within.mapM {f : α → Understood β} : ∀ {as : List α}, (∀ a ∈ as, Within s Q (f a)) →
    Within s (fun bs => ∀ b ∈ bs, Q b) (as.mapM f)
  | [], _ => fun _ hb => by cases hb
  | a :: as, h => by
    rw [List.mapM_cons]
    refine (h a List.mem_cons_self).bind fun b hb => ?_
    refine (Within.mapM fun a' ha' => h a' (List.mem_cons_of_mem a ha')).bind fun bs hbs => ?_
    exact List.forall_mem_cons.mpr ⟨hb, hbs⟩

end Understood

open Understood (FaultsIn)

variable {s : Span} {lookup : Lookup} {kind : Kind} {bounds : RangeBounds} {vs : List Value}

/-- The first of some values lies where they do. -/
theorem liesIn_head (hvs : vs ≠ []) (h : ∀ v ∈ vs, v.Within s) :
    ((vs.head?.map Value.range).getD (.point 0)).LiesIn s := by
  obtain ⟨v, vs, rfl⟩ := List.exists_cons_of_ne_nil hvs
  exact (h v List.mem_cons_self).range

/-! ## Names -/

theorem faultsIn_resolve {path : Path} (h : path.Within s) :
    FaultsIn s (resolve lookup kind path) := by
  unfold resolve
  split
  · exact h.range
  · simp only
    split
    · exact h.range
    split
    · exact h.range
    · trivial

theorem faultsIn_resolveAll {paths : List Path} (h : ∀ p ∈ paths, p.Within s) :
    FaultsIn s (resolveAll lookup kind paths) :=
  (Understood.Within.mapM fun p hp => faultsIn_resolve (h p hp)).map fun _ _ => trivial

theorem faultsIn_resolveBare {paths : List Path} (h : ∀ p ∈ paths, p.Within s) :
    FaultsIn s (resolveBare lookup paths) := by
  have htags : FaultsIn s (resolveAll lookup .tag paths) := faultsIn_resolveAll h
  unfold resolveBare
  split
  · trivial
  rename_i fault hfault
  rw [hfault] at htags
  split
  · trivial
  split
  · trivial
  split
  · rename_i path hpath
    exact (h path (List.mem_of_find?_eq_some hpath)).range
  · exact htags

namespace Sequence

theorem within_singleName (hvs : vs ≠ []) (h : ∀ v ∈ vs, v.Within s) :
    Understood.Within s (Path.Within s) (singleName vs) := by
  unfold singleName
  split
  · rename_i v
    obtain ⟨hrange, hpath⟩ := h v List.mem_cons_self
    split
    · exact hrange
    split
    · exact hpath.range
    · exact hpath
  · exact liesIn_head hvs h

theorem faultsIn_placeOf {found : List Entity} {name : Path} (h : name.Within s) :
    FaultsIn s (placeOf lookup found name) := by
  unfold placeOf
  simp only
  split
  · trivial
  · exact h.range

/-- The faults of a stretch are those of the names at its ends. -/
theorem faultsIn_stretch {first last : Option End} {found : List Entity}
    (hfirst : ∀ e ∈ first, e.name.Within s) (hlast : ∀ e ∈ last, e.name.Within s) :
    FaultsIn s (stretch lookup first last found) := by
  rcases first with _ | e <;> rcases last with _ | e'
  · trivial
  · exact (faultsIn_placeOf (hlast e' rfl)).bind fun _ _ => trivial
  · exact (faultsIn_placeOf (hfirst e rfl)).bind fun _ _ => trivial
  · exact (faultsIn_placeOf (hfirst e rfl)).bind fun _ _ =>
      (faultsIn_placeOf (hlast e' rfl)).bind fun _ _ => trivial

theorem faultsIn_stretches {subject : Path} {first last : Option End}
    (hfirst : ∀ e ∈ first, e.name.Within s) (hlast : ∀ e ∈ last, e.name.Within s) :
    FaultsIn s (stretches lookup subject first last) :=
  (Understood.Within.mapM fun _ _ => faultsIn_stretch hfirst hlast).bind fun _ _ => trivial

theorem faultsIn_between {subject other : Path} (h : other.Within s) :
    FaultsIn s (between lookup subject other) := by
  unfold between
  split
  · trivial
  · exact (faultsIn_placeOf h).bind fun _ _ => trivial

theorem within_end {name : Path} {included : Bool} (h : name.Within s) :
    ∀ e ∈ some (End.mk name included), e.name.Within s := fun _ he => Option.some.inj he ▸ h

/-- The ends that a comparison leaves are the member that it compares with. -/
theorem within_comparisonEnds {family : Family} {member : Path} (h : member.Within s) :
    (∀ e ∈ (comparisonEnds family member).1, e.name.Within s) ∧
      ∀ e ∈ (comparisonEnds family member).2, e.name.Within s := by
  have hnone : ∀ e ∈ (none : Option End), e.name.Within s := fun e he => by cases he
  cases family
  case gt => exact ⟨within_end h, hnone⟩
  case gte => exact ⟨within_end h, hnone⟩
  all_goals exact ⟨hnone, within_end h⟩

/-- **What is wrong with a relation of tags** lies where the relation does. -/
theorem faultsIn_selectBinary {subject : Path} {family : Family} {predicate : Predicate}
    {range : Span} (hpredicate : predicate.Within s) (hrange : range.LiesIn s) :
    FaultsIn s (selectBinary lookup bounds subject family predicate range) := by
  unfold selectBinary
  cases predicate with
  | values values =>
    have hname := within_singleName hpredicate.1 hpredicate.2
    have hcompared : ∀ name : Path, name.Within s → FaultsIn s (stretches lookup subject
        (comparisonEnds family name).1 (comparisonEnds family name).2) := fun name h =>
      faultsIn_stretches (within_comparisonEnds h).1 (within_comparisonEnds h).2
    cases family
    case equal => exact hname.bind fun _ _ => trivial
    case similar => exact hname.bind fun _ h => faultsIn_between h
    all_goals exact hname.bind hcompared
  | collection paths =>
    cases family
    case equal => trivial
    all_goals exact hrange
  | range literal =>
    cases family
    case equal => exact faultsIn_stretches (within_end hpredicate.1) (within_end hpredicate.2)
    all_goals exact hrange

/-- **What is wrong with a phrase of tags** lies where the phrase does. -/
theorem faultsIn_members {phrase : Phrase} (h : phrase.Within s) :
    FaultsIn s (members lookup bounds phrase) := by
  have hselect : FaultsIn s (select lookup bounds phrase) := by
    unfold select
    split
    · trivial
    · trivial
    · rename_i hrelation
      obtain ⟨hpredicate, hrange⟩ := h.relation _ hrelation
      exact faultsIn_selectBinary hpredicate hrange
  refine hselect.bind fun found _ => ?_
  split
  · exact h.range
  · trivial

end Sequence

/-! ## Fields -/

namespace Filtering

variable {year : Int} {type : FieldType} {field : Field} {path : Path}

theorem within_singleValue {name : String} (hvs : vs ≠ []) (h : ∀ v ∈ vs, v.Within s) :
    Understood.Within s (Path.Within s) (singleValue name vs) := by
  unfold singleValue
  split
  · rename_i v
    obtain ⟨hrange, hpath⟩ := h v List.mem_cons_self
    split
    · exact hpath
    · exact hrange
  · exact liesIn_head hvs h

theorem faultsIn_scalar (h : path.Within s) : FaultsIn s (scalar path) := by
  unfold scalar
  split
  · trivial
  · exact h.range

theorem faultsIn_orCastFault {α : Type} {text expected : String} {range : Span} {value : Option α}
    (h : range.LiesIn s) : FaultsIn s (Value.orCastFault text expected range value) := by
  cases value with
  | some a => trivial
  | none => exact h

theorem faultsIn_patternNumber {text : String} {range : Span} (h : range.LiesIn s) :
    FaultsIn s (Value.patternNumber text range) := by
  unfold Value.patternNumber
  simp only
  split
  · exact (faultsIn_orCastFault h).map fun _ _ => trivial
  split
  · trivial
  · exact (faultsIn_orCastFault h).map fun _ _ => trivial

/-- **What is wrong with a literal** lies where it is written. -/
theorem faultsIn_extent? (h : path.Within s) : FaultsIn s (extent? year type path) := by
  have hread : ∀ {α : Type} (expected : String) (value : Option α) (text : String),
      FaultsIn s (Value.orCastFault text expected path.range value) := fun _ _ _ =>
    faultsIn_orCastFault h.range
  cases type
  case size => exact (hread _ _ _).bind fun _ _ => trivial
  case date => exact (hread _ _ _).bind fun _ _ => trivial
  case dateTime => exact (hread _ _ _).bind fun _ _ => trivial
  case patternNumber =>
    refine (faultsIn_scalar h).bind fun text _ =>
      (faultsIn_patternNumber h.range).bind fun number _ => ?_
    cases number <;> trivial
  all_goals exact (faultsIn_scalar h).bind fun _ _ => (hread _ _ _).bind fun _ _ => trivial

theorem faultsIn_comparable (h : path.Within s) : FaultsIn s (comparable year type path) := by
  unfold comparable
  split
  · exact h.range
  · refine (faultsIn_extent? h).bind fun e _ => ?_
    cases e with
    | some e => trivial
    | none => exact h.range

theorem faultsIn_comparablePortion (h : path.Within s) :
    FaultsIn s (comparablePortion year type path) := by
  refine (faultsIn_extent? h).bind fun e _ => ?_
  rcases e with _ | _ | _
  · exact (faultsIn_scalar h).bind fun _ _ => trivial
  · trivial
  · trivial

theorem faultsIn_textPortion (h : path.Within s) : FaultsIn s (textPortion path) := by
  refine (faultsIn_scalar h).bind fun text _ => ?_
  split <;> trivial

theorem faultsIn_flagOf (h : path.Within s) : FaultsIn s (flagOf path) := by
  refine (faultsIn_scalar h).bind fun text _ => ?_
  unfold Value.tagme
  split
  · trivial
  · exact h.range

/-- **What is wrong with values of a field** lies where they are written. -/
theorem faultsIn_equal {paths : List Path} (h : ∀ p ∈ paths, p.Within s) :
    FaultsIn s (equal year field paths) := by
  have hall : ∀ {α : Type} {f : Path → Understood α}, (∀ p : Path, p.Within s → FaultsIn s (f p)) →
      FaultsIn s (paths.mapM f) := fun hf =>
    (Understood.Within.mapM fun p hp => hf p (h p hp)).faultsIn
  unfold equal
  split
  · trivial
  generalize field.type = type
  cases type
  case string =>
    refine (hall fun p hp => ?_).bind fun _ _ => trivial
    exact (faultsIn_scalar hp).bind fun _ _ => trivial
  case patternString => exact (hall fun _ => faultsIn_textPortion).bind fun _ _ => trivial
  case composition => exact (hall fun _ => faultsIn_flagOf).bind fun _ _ => trivial
  case flag => exact (h _ List.mem_cons_self).range
  all_goals exact (hall fun _ => faultsIn_comparablePortion).bind fun _ _ => trivial

theorem faultsIn_rangeFilter {literal : Query.RangeLiteral} (hfirst : literal.first.Within s)
    (hlast : literal.last.Within s) : FaultsIn s (rangeFilter year bounds field literal) :=
  (faultsIn_comparable hfirst).bind fun _ _ => (faultsIn_comparable hlast).bind fun _ _ => trivial

theorem faultsIn_patterns {family : Family} {predicate : Predicate} {range : Span}
    (hpredicate : predicate.Within s) (hrange : range.LiesIn s) :
    FaultsIn s (patterns field family range predicate) := by
  cases predicate with
  | values values =>
    exact (within_singleValue hpredicate.1 hpredicate.2).bind fun _ hpath =>
      (faultsIn_scalar hpath).bind fun _ _ => trivial
  | collection paths =>
    exact (Understood.Within.mapM fun p hp => faultsIn_scalar (hpredicate p hp)).faultsIn
  | range literal => exact hrange

/-- **What is wrong with a relation on a field** lies where the relation does. -/
theorem faultsIn_binary {family : Family} {predicate : Predicate} {range : Span}
    (hpredicate : predicate.Within s) (hrange : range.LiesIn s) :
    FaultsIn s (binary year bounds field family predicate range) := by
  unfold binary
  simp only
  split
  · exact hrange
  cases family
  case equal =>
    cases predicate with
    | values values =>
      refine (within_singleValue hpredicate.1 hpredicate.2).bind fun path hpath => ?_
      exact faultsIn_equal (List.forall_mem_singleton.mpr hpath)
    | collection paths => exact faultsIn_equal hpredicate
    | range literal =>
      simp only
      split
      · exact (faultsIn_rangeFilter hpredicate.1 hpredicate.2).bind fun _ _ => trivial
      · exact hrange
  case similar =>
    simp only
    split
    · exact (faultsIn_patterns hpredicate hrange).bind fun _ _ => trivial
    · exact hrange
  all_goals
    simp only
    split
    · cases predicate with
      | values values =>
        exact (within_singleValue hpredicate.1 hpredicate.2).bind fun _ hpath =>
          (faultsIn_comparable hpath).bind fun _ _ => trivial
      | collection | range => exact hrange
    · exact hrange

/-- **What is wrong with a phrase about a field** lies where the phrase does. -/
theorem faultsIn_filters {phrase : Phrase} (h : phrase.Within s) :
    FaultsIn s (filters year bounds field phrase) := by
  unfold filters
  simp only
  split
  · rename_i hrelation
    exact h.relation _ hrelation
  · split
    · trivial
    · trivial
    all_goals exact h.range
  · rename_i hrelation
    obtain ⟨hpredicate, hrange⟩ := h.relation _ hrelation
    split
    · exact hrange
    · exact faultsIn_binary hpredicate hrange

end Filtering

/-! ## Items -/

namespace Analysis

variable {options : CompilerOptions} {clock : Int} {phrase : Phrase} {item : Item}
  {subjects : List Subject} {present : List OrderKey}

theorem faultsIn_classify {source : Bool} (h : phrase.Within s) :
    FaultsIn s (classify source phrase) := by
  have hword : ∀ word, FaultsIn s (classifyWord phrase source word) := by
    intro word
    unfold classifyWord
    simp only
    split
    · trivial
    split
    · trivial
    · trivial
    split
    · exact h.subject.range
    · trivial
  have hname : FaultsIn s (classifyName phrase source) := by
    unfold classifyName
    split
    · split
      · trivial
      · exact h.range
    split
    · split <;> trivial
    · trivial
  unfold classify
  cases subjectWord? phrase with
  | none => exact hname
  | some word =>
    refine (hword word).bind fun said _ => ?_
    cases said with
    | none => exact hname
    | some subject => trivial

/-! ### Items that sort -/

/-- Warnings and faults lie inside the span, and what is understood has the property. -/
structure StandsIn {α : Type} (s : Span) (P : α → Prop)
    (r : List SemanticFault × Understood α) : Prop where
  warnings : ∀ w ∈ r.1, w.range.LiesIn s
  outcome : r.2.Within s P

theorem StandsIn.of_within {α : Type} {P : α → Prop} {x : Understood α} (h : x.Within s P) :
    StandsIn s P ([], x) :=
  ⟨fun _ hw => (by cases hw), h⟩

theorem StandsIn.map {α β : Type} {P : α → Prop} {Q : β → Prop} {f : α → β}
    {r : List SemanticFault × Understood α} (h : StandsIn s P r) (hf : ∀ a, P a → Q (f a)) :
    StandsIn s Q (r.1, r.2.map f) :=
  ⟨h.warnings, h.outcome.map hf⟩

/-- **Warnings and faults of a sort list** lie where its values do. -/
theorem standsIn_sortItems (h : ∀ v ∈ vs, v.Within s) :
    StandsIn s (fun _ => True) (sortItems present vs) := by
  induction vs generalizing present with
  | nil => exact .of_within trivial
  | cons v vs ih =>
    obtain ⟨hv, hvs⟩ := List.forall_mem_cons.mp h
    have hitem : FaultsIn s (sortItem v) := by
      unfold sortItem
      simp only
      split
      · trivial
      · exact hv.range
    rw [sortItems]
    split
    · rename_i fault hfault
      rw [hfault] at hitem
      exact .of_within hitem
    · split
      · have hrest : StandsIn s (fun _ => True) (sortItems present vs) := ih hvs
        exact ⟨List.forall_mem_cons.mpr ⟨hv.range, hrest.warnings⟩, hrest.outcome⟩
      · exact (ih hvs).map fun _ _ => trivial

theorem standsIn_sorts (h : phrase.Within s) :
    StandsIn s (fun _ => True) (sorts present phrase) := by
  unfold sorts
  split
  · rename_i hrelation
    exact standsIn_sortItems (h.relation _ hrelation).1.2
  · rename_i hrelation
    exact .of_within (h.relation _ hrelation).2
  · exact .of_within h.range
  · exact .of_within h.range

/-! ### Items that do not sort -/

/-- The clause that an item adds lies inside the span. -/
def Contribution.Within (s : Span) : Contribution → Prop
  | element clause => clause.range.LiesIn s
  | filter clause => clause.range.LiesIn s
  | sorts _ | nothing => True

theorem faultsIn_markedPhrase (h : phrase.Within s) :
    FaultsIn s (markedPhrase lookup bounds kind phrase) := by
  unfold markedPhrase
  split
  · rename_i relation hrelation
    have hwithin := h.relation relation (Option.filter_eq_some_iff.mp hrelation).1
    cases relation with
    | binary family predicate range => exact hwithin.2
    | unary direction range => exact hwithin
  · split
    · exact h.range
    split
    · exact Sequence.faultsIn_members h
    · exact faultsIn_resolve h.subject

theorem within_markedItem {mark : Query.Mark} (h : item.Within s) :
    (markedItem lookup bounds item mark).Within s fun c => c.range.LiesIn s := by
  unfold markedItem
  split
  · exact h.range
  · exact (Understood.Within.mapM fun p hp => faultsIn_markedPhrase (h.phrases p hp)).bind
      fun _ _ => h.range

/-- The names that a field of metadata has as values lie where they are written. -/
theorem within_elementFieldNames (h : phrase.Within s) :
    (elementFieldNames kind phrase).Within s fun paths => ∀ p ∈ paths, p.Within s := by
  unfold elementFieldNames
  split
  · rename_i family predicate range hrelation
    obtain ⟨hpredicate, hrange⟩ := h.relation _ hrelation
    split
    · exact hrange
    cases predicate with
    | values values =>
      refine Understood.Within.mapM fun v hv => ?_
      split
      · exact (hpredicate.2 v hv).path
      · exact (hpredicate.2 v hv).range
    | collection paths => exact hpredicate
    | range literal => exact hrange
  · exact h.range
  · exact h.range

theorem within_filterItem {fields : List (Field × Phrase)} (h : item.Within s)
    (hfields : ∀ f ∈ fields, f.2.Within s) :
    (filterItem options clock item fields).Within s (Contribution.Within s) := by
  unfold filterItem
  refine (Understood.Within.mapM fun f hf => Filtering.faultsIn_filters (hfields f hf)).bind
    fun groups _ => ?_
  split
  · trivial
  · exact h.range

theorem within_elementFieldItem {kinds : List Kind} (h : item.Within s) :
    (elementFieldItem lookup item kind kinds).Within s fun c => c.range.LiesIn s := by
  unfold elementFieldItem
  split
  · exact h.range
  · refine (Understood.Within.mapM fun p hp => within_elementFieldNames (h.phrases p hp)).bind
      fun paths hpaths => ?_
    refine (faultsIn_resolveAll fun p hp => ?_).bind fun _ _ => h.range
    obtain ⟨ps, hps, hp⟩ := List.mem_flatten.mp hp
    exact hpaths ps hps p hp

/-- What is said of phrases is said of phrases that lie inside the span. -/
theorem within_zip (h : item.Within s) : ∀ e ∈ subjects.zip item.element.phrases, e.2.Within s :=
  fun e he => h.phrases e.2 (List.of_mem_zip (a := e.1) he).2

theorem within_fieldItem (h : item.Within s) :
    (fieldItem lookup options clock item subjects).Within s (Contribution.Within s) := by
  unfold fieldItem
  split
  · refine within_filterItem h fun f hf => ?_
    obtain ⟨e, he, hf⟩ := List.mem_filterMap.mp hf
    split at hf
    · obtain rfl := Option.some.inj hf
      exact within_zip h e he
    all_goals cases hf
  · split
    · exact h.range
    · exact (within_elementFieldItem h).bind fun _ hc => hc

theorem within_textItem (h : item.Within s) :
    (textItem item subjects).Within s fun c => c.range.LiesIn s := by
  unfold textItem
  split <;> exact h.range

theorem within_nameItem (h : item.Within s) :
    (nameItem lookup bounds item subjects).Within s fun c => c.range.LiesIn s := by
  have hnames : ∀ p ∈ item.element.phrases.map Phrase.subject, p.Within s := by
    rintro p hp
    obtain ⟨phrase, hphrase, rfl⟩ := List.mem_map.mp hp
    exact (h.phrases phrase hphrase).subject
  have hrelated : ∀ e ∈ subjects.zip item.element.phrases,
      FaultsIn s (relatedPhrase lookup bounds e) := by
    intro e he
    have hphrase : e.2.Within s := within_zip h e he
    unfold relatedPhrase
    split
    · exact Sequence.faultsIn_members hphrase
    · exact faultsIn_resolve hphrase.subject
  unfold nameItem
  simp only
  split
  · exact (Understood.Within.mapM hrelated).bind fun _ _ => h.range
  split
  · exact (faultsIn_resolveAll hnames).bind fun _ _ => h.range
  · exact (faultsIn_resolveBare hnames).bind fun _ _ => h.range

theorem within_plainItem (h : item.Within s) :
    (plainItem lookup options clock item subjects).Within s (Contribution.Within s) := by
  unfold plainItem
  split
  · split
    · exact within_fieldItem h
    · exact h.range
  split
  · split
    · exact (within_textItem h).bind fun _ hc => hc
    · exact h.range
  · exact (within_nameItem h).bind fun _ hc => hc

/-- **What an item adds, and what is wrong with it**, lies where the item does. -/
theorem standsIn_analyzeItem (h : item.Within s) :
    StandsIn s (Contribution.Within s) (analyzeItem lookup options clock present item) := by
  unfold analyzeItem
  split
  · exact .of_within ((within_markedItem h).map fun _ hc => hc)
  have hclassify : FaultsIn s (item.element.phrases.mapM (classify item.source)) :=
    (Understood.Within.mapM fun p hp => faultsIn_classify (h.phrases p hp)).faultsIn
  split
  · rename_i fault hfault
    rw [hfault] at hclassify
    exact .of_within hclassify
  split
  · unfold sortingItem
    split
    · rename_i phrase hphrase
      split
      · exact .of_within h.range
      · exact (standsIn_sorts (h.phrases phrase (by simp [hphrase]))).map fun _ _ => trivial
    · exact .of_within h.range
  · exact .of_within (within_plainItem h)

/-! ### Nodes of items -/

/-- Findings and clauses so far lie inside the span. -/
structure Progress.Within (s : Span) (p : Progress) : Prop where
  warnings : ∀ w ∈ p.findings.warnings, w.range.LiesIn s
  errors : ∀ e ∈ p.findings.errors, e.range.LiesIn s
  elements : ∀ c ∈ p.meaning.elements, c.range.LiesIn s
  filters : ∀ c ∈ p.meaning.filters, c.range.LiesIn s

theorem Progress.within_empty : Within s ⟨.empty, .empty⟩ where
  warnings _ hw := by cases hw
  errors _ he := by cases he
  elements _ hc := by cases hc
  filters _ hc := by cases hc

theorem Progress.Within.add {p : Progress} {r : List SemanticFault × Understood Contribution}
    (hp : p.Within s) (hr : StandsIn s (Contribution.Within s) r) : (p.add r).Within s := by
  obtain ⟨ws, outcome⟩ := r
  obtain ⟨hws, houtcome⟩ := hr
  have hwarnings := List.forall_mem_append.mpr ⟨hp.warnings, hws⟩
  cases outcome with
  | error fault =>
    have herrors := List.forall_mem_append.mpr ⟨hp.errors, List.forall_mem_singleton.mpr houtcome⟩
    exact ⟨hwarnings, herrors, hp.elements, hp.filters⟩
  | ok c =>
    cases c with
    | sorts | nothing => exact ⟨hwarnings, hp.errors, hp.elements, hp.filters⟩
    | element clause =>
      have hclauses :=
        List.forall_mem_append.mpr ⟨hp.elements, List.forall_mem_singleton.mpr houtcome⟩
      exact ⟨hwarnings, hp.errors, hclauses, hp.filters⟩
    | filter clause =>
      have hclauses :=
        List.forall_mem_append.mpr ⟨hp.filters, List.forall_mem_singleton.mpr houtcome⟩
      exact ⟨hwarnings, hp.errors, hp.elements, hclauses⟩

/-- **What comes with an item** lies where its node does. -/
theorem within_addItem {p : Progress} {node : Tree} (hp : p.Within s) (hnode : Stands s node)
    (hitem : Query.readItem node = .ok item) : (addItem lookup options clock p node).Within s := by
  rw [addItem_of_readItem hitem]
  exact hp.add (standsIn_analyzeItem (Query.within_of_readItem hnode hitem))

/-- **What comes with the items of a query** lies where their nodes do. -/
theorem within_foldl_addItem {nodes : List Tree} {items : List Item}
    (hnodes : ∀ n ∈ nodes, Stands s n) (hitems : nodes.mapM Query.readItem = .ok items)
    {p : Progress} (hp : p.Within s) : (nodes.foldl (addItem lookup options clock) p).Within s := by
  induction nodes generalizing p items with
  | nil => exact hp
  | cons node nodes ih =>
    rw [List.mapM_cons] at hitems
    obtain ⟨item, hitem, hitems⟩ := Understood.exists_of_bind hitems
    obtain ⟨rest, hrest, _⟩ := Understood.exists_of_bind hitems
    obtain ⟨hnode, hnodes⟩ := List.forall_mem_cons.mp hnodes
    exact ih hnodes hrest (within_addItem hp hnode hitem)

/-- What is wrong with an item, if anything is. -/
def fault? (lookup : Lookup) (options : CompilerOptions) (clock : Int) (item : Item) :
    Option SemanticFault :=
  match (analyzeItem lookup options clock [] item).2 with
  | .ok _ => none
  | .error fault => some fault

/-- **What is wrong with an item** lies where the item does. -/
theorem liesIn_of_fault? {fault : SemanticFault} (h : item.Within s)
    (hfault : fault? lookup options clock item = some fault) : fault.range.LiesIn s := by
  have houtcome : (analyzeItem lookup options clock [] item).2.Within s (Contribution.Within s) :=
    (standsIn_analyzeItem h).outcome
  unfold fault? at hfault
  split at hfault
  · cases hfault
  · rename_i hitem
    rw [hitem] at houtcome
    exact Option.some.inj hfault ▸ houtcome

/-- The error of a scope is what is wrong with its item. -/
theorem errors_scope {node : Tree} (h : Query.readItem node = .ok item) :
    (scope lookup options clock node).findings.errors =
      (fault? lookup options clock item).toList := by
  rw [scope, addItem_of_readItem h]
  show (Progress.add ⟨.empty, .empty⟩
    (analyzeItem lookup options clock [] item)).findings.errors = _
  rw [Progress.add, fault?]
  cases (analyzeItem lookup options clock [] item).2 <;> rfl

theorem flatMap_errors_scope {nodes : List Tree} {items : List Item}
    (hitems : nodes.mapM Query.readItem = .ok items) :
    (nodes.flatMap fun n => (scope lookup options clock n).findings.errors) =
      items.filterMap (fault? lookup options clock) := by
  induction nodes generalizing items with
  | nil =>
    obtain rfl := Except.ok.inj hitems
    rfl
  | cons node nodes ih =>
    rw [List.mapM_cons] at hitems
    obtain ⟨item, hitem, hitems⟩ := Understood.exists_of_bind hitems
    obtain ⟨rest, hrest, hitems⟩ := Understood.exists_of_bind hitems
    obtain rfl := Except.ok.inj hitems
    rw [List.flatMap_cons, errors_scope hitem, ih hrest, List.filterMap_cons]
    cases fault? lookup options clock item <;> rfl

/-- **The errors of a query** are what is wrong with its items. -/
theorem errors_foldl_eq {nodes : List Tree} {items : List Item}
    (hitems : nodes.mapM Query.readItem = .ok items) (p : Progress) :
    (nodes.foldl (addItem lookup options clock) p).findings.errors =
      p.findings.errors ++ items.filterMap (fault? lookup options clock) := by
  rw [(foldl_addItem_beside nodes p).errors, List.flatMap_map]
  exact congrArg _ (flatMap_errors_scope hitems)

end Analysis

/-! ## Queries -/

/-- **What is understood of a query** lies where the query does, and its errors are what is wrong
with its items. -/
theorem within_analyze {options : CompilerOptions} {clock : Int} {root : Tree} {nodes : List Tree}
    {items : List Item} (hnodes : Query.itemNodes root = .ok nodes)
    (hitems : nodes.mapM Query.readItem = .ok items) (hstands : ∀ n ∈ nodes, Stands s n) :
    (analyze lookup options clock root).errors =
        items.filterMap (Analysis.fault? lookup options clock) ∧
      (∀ f ∈ (analyze lookup options clock root).warnings ++
        (analyze lookup options clock root).errors, f.range.LiesIn s) ∧
      ∀ m ∈ (analyze lookup options clock root).result, ∀ c ∈ m.elements, c.range.LiesIn s := by
  have hwithin : (nodes.foldl (Analysis.addItem lookup options clock) ⟨.empty, .empty⟩).Within s :=
    Analysis.within_foldl_addItem hstands hitems Analysis.Progress.within_empty
  rw [analyze, hnodes]
  refine ⟨Analysis.errors_foldl_eq hitems _,
    List.forall_mem_append.mpr ⟨hwithin.warnings, hwithin.errors⟩, fun m hm => ?_⟩
  obtain ⟨_, hresult⟩ := (Findings.finish_result_eq_some_iff _ _).mp hm
  exact Option.some.inj hresult ▸ hwithin.elements

end PixQuery
