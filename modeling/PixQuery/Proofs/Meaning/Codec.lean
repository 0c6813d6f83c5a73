import PixQuery.Meaning.Codec
import PixQuery.Proofs.Metadata.Codec
import PixQuery.Proofs.Value.Days

/-!
# Meanings are read back from documents

Free text and entities share a place in documents. Free text is tried first where they are read, and
no entity has the members that it needs, so neither is taken for the other.

Results:
* `ElementValue.ofJson?_json`: free text and entities are told apart.
* `Filter.ofJson?_json`: filters of all forms, with the ends that a range has.
* `Meaning.ofJson?_json`: a meaning is read back from its document.
* `Meaning.fits_json`: the document is one that a text can hold, if the positions in it are.
-/

namespace PixQuery

open Json
open Query (Direction)

/-! ## Names -/

@[simp] theorem Query.Direction.ofJson?_name (d : Direction) :
    Direction.ofJson? (.text d.name) = some d := by
  cases d <;> rfl

@[simp] theorem OrderKey.ofJson?_json (k : OrderKey) : OrderKey.ofJson? k.json = some k := by
  cases k <;> rfl

@[simp] theorem Field.ofJson?_json (f : Field) : Field.ofJson? f.json = some f := by
  cases f <;> rfl

@[simp] theorem ElementKind.ofJson?_name (k : ElementKind) :
    ElementKind.ofJson? (.text k.name) = some k := by
  cases k with
  | text => rfl
  | of kind => cases kind <;> rfl

@[simp] theorem SortItem.ofJson?_json (s : SortItem) : SortItem.ofJson? s.json = some s := by
  simp [SortItem.ofJson?, SortItem.json]

/-! ## Elements -/

/-- An entity has no member `value`, so it is not read as free text. -/
theorem ElementValue.textOfJson?_entity (e : Entity) : textOfJson? e.json = none := by
  have hvalue : "value" ∉ (("kind", Json.text e.kind.name) :: e.members).map Prod.fst := by
    intro h
    rcases List.mem_cons.mp h with h | h
    · exact absurd (show "value" = "kind" from h) (by decide)
    · exact absurd (Entity.mem_keys h) (by decide)
  have hmissing : required text? (("kind", .text e.kind.name) :: e.members) "value" = none := by
    rw [required, member_of_not_mem hvalue]
  simp only [textOfJson?, Entity.json, members?_object, Option.bind_eq_bind, Option.bind_some,
    hmissing, Option.bind_none]

/-- **Free text and entities are told apart.** -/
@[simp] theorem ElementValue.ofJson?_json (v : ElementValue) : ofJson? v.json = some v := by
  cases v with
  | text value exact => simp [ofJson?, textOfJson?, json]
  | entity e => simp [ofJson?, json, textOfJson?_entity]

@[simp] theorem ElementClause.ofJson?_json (c : ElementClause) : ofJson? c.json = some c := by
  simp [ofJson?, json, arrayOf?_map ElementValue.ofJson?_json]

/-! ## Filters -/

@[simp] theorem int64?_whole (n : Int64) : int64? (.whole n.toInt) = some n := by
  simp only [int64?, signed?, if_pos (Value.holdsInt_toInt n), Option.map_some, Int64.ofInt_toInt]

@[simp] theorem FilterValue.ofJson?_json (v : FilterValue) : ofJson? v.json = some v := by
  cases v with
  | number n => simp [ofJson?, json]
  | size n => simp [ofJson?, json]
  | date d => simp [ofJson?, json, Date.ofText?_text]
  | text s => simp [ofJson?, json]

@[simp] theorem Bound.ofJson?_json (b : Bound) : ofJson? b.json = some b := by
  simp [ofJson?, json]

@[simp] theorem Bound.option?_json (b : Bound) : option? ofJson? b.json = some (some b) :=
  congrArg (Option.map some) b.ofJson?_json

/-- **Filters of all forms are read back.** -/
@[simp] theorem Filter.ofJson?_json (f : Filter) : ofJson? f.json = some f := by
  cases f with
  | equal field values =>
    simp [ofJson?, json, details, formName, Filter.field, arrayOf?_map FilterValue.ofJson?_json]
  | similar field patterns => simp [ofJson?, json, details, formName, Filter.field]
  | range field lower upper =>
    cases lower <;> cases upper <;>
      simp [ofJson?, json, details, formName, Filter.field, Bound.member]
  | flag field => simp [ofJson?, json, details, formName, Filter.field]
  | composition field value => simp [ofJson?, json, details, formName, Filter.field]

@[simp] theorem FilterClause.ofJson?_json (c : FilterClause) : ofJson? c.json = some c := by
  simp [ofJson?, json, arrayOf?_map Filter.ofJson?_json]

/-! ## Meanings -/

/-- **A meaning is read back from its document.** -/
theorem Meaning.ofJson?_json (m : Meaning) : ofJson? m.json = some m := by
  simp [ofJson?, json, arrayOf?_map SortItem.ofJson?_json, arrayOf?_map ElementClause.ofJson?_json,
    arrayOf?_map FilterClause.ofJson?_json]

/-! ## Levels and numbers -/

/-- The positions of the span fit into 64 bits. -/
def Span.InWords (s : Span) : Prop := s.start < 2 ^ 64 ∧ ∀ stop ∈ s.stop, stop < 2 ^ 64

/-- The positions of all clauses fit into 64 bits. -/
structure Meaning.InWords (m : Meaning) : Prop where
  elements : ∀ c ∈ m.elements, c.range.InWords
  filters : ∀ c ∈ m.filters, c.range.InWords

section Fits

variable {n : Nat}

theorem Span.fits_json {s : Span} (h : s.InWords) : Fits (n + 1) s.json := by
  obtain ⟨start, stop⟩ := s
  obtain ⟨hstart, hstop⟩ := h
  cases stop with
  | none => simp [json, fits_ofNat hstart]
  | some stop => simp [json, fits_ofNat hstart, fits_ofNat (hstop stop rfl)]

@[simp] theorem SortItem.fits_json (s : SortItem) : Fits (n + 1) s.json := by
  simp [json, OrderKey.json]

@[simp] theorem ElementValue.fits_json (v : ElementValue) : Fits (n + 2) v.json := by
  cases v <;> simp [json]

@[simp] theorem FilterValue.fits_json (v : FilterValue) : Fits (n + 1) v.json := by
  cases v <;> simp [json]

@[simp] theorem Bound.fits_json (b : Bound) : Fits (n + 2) b.json := by
  simp [json]

@[simp] theorem Filter.fits_json (f : Filter) : Fits (n + 3) f.json := by
  cases f with
  | range field lower upper =>
    cases lower <;> cases upper <;> simp [json, details, Field.json, Bound.member]
  | equal | similar | flag | composition => simp [json, details, Field.json]

theorem ElementClause.fits_json {c : ElementClause} (h : c.range.InWords) :
    Fits (n + 4) c.json := by
  simp [json, Span.fits_json h]

theorem FilterClause.fits_json {c : FilterClause} (h : c.range.InWords) : Fits (n + 5) c.json := by
  simp [json, Span.fits_json h]

/-- The document of a meaning has seven levels, and its numbers have 64 bits. -/
theorem Meaning.fits_json {m : Meaning} (h : m.InWords) : Fits (n + 7) m.json := by
  have helements : ∀ c ∈ m.elements, Fits (n + 5) c.json := fun c hc =>
    ElementClause.fits_json (h.elements c hc)
  have hfilters : ∀ c ∈ m.filters, Fits (n + 5) c.json := fun c hc =>
    FilterClause.fits_json (h.filters c hc)
  simpa [json] using ⟨helements, hfilters⟩

end Fits

end PixQuery
