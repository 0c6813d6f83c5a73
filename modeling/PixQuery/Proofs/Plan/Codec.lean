import PixQuery.Plan.Codec
import PixQuery.Proofs.Meaning.Codec

/-!
# Plans are read back from documents

Sort keys, members and filters are written in plans as they are in meanings, so what is left are the
groups of a plan.

Results:
* `Plan.ofJson?_json`: a plan is read back from its document.
* `Plan.fits_json`: the document is one that a text can hold.
* `documents_lossless`: plans and meanings are read back from documents and from their texts.
-/

namespace PixQuery

open Json

@[simp] theorem ElementItem.ofJson?_json (i : ElementItem) : ofJson? i.json = some i := by
  simp [ofJson?, json, arrayOf?_map ElementValue.ofJson?_json]

@[simp] theorem ElementGroup.ofJson?_json (g : ElementGroup) : ofJson? g.json = some g := by
  simp [ofJson?, json, arrayOf?_map ElementItem.ofJson?_json]

@[simp] theorem FilterGroup.ofJson?_json (g : FilterGroup) : ofJson? g.json = some g := by
  simp [ofJson?, json, arrayOf?_map Filter.ofJson?_json]

/-- A plan is read back from its document. -/
theorem Plan.ofJson?_json (p : Plan) : ofJson? p.json = some p := by
  simp [ofJson?, json, arrayOf?_map SortItem.ofJson?_json, arrayOf?_map ElementGroup.ofJson?_json,
    arrayOf?_map FilterGroup.ofJson?_json]

section Fits

variable {n : Nat}

@[simp] theorem ElementItem.fits_json (i : ElementItem) : Fits (n + 4) i.json := by
  simp [json]

@[simp] theorem ElementGroup.fits_json (g : ElementGroup) : Fits (n + 6) g.json := by
  simp [json]

@[simp] theorem FilterGroup.fits_json (g : FilterGroup) : Fits (n + 5) g.json := by
  simp [json]

/-- The document of a plan has eight levels, and its numbers have 64 bits. -/
theorem Plan.fits_json (p : Plan) : Fits (n + 8) p.json := by
  simp [json]

end Fits

/-- **Documents lose nothing.** Every plan is read back from its document, and from the text of the
document, on one line or over several: entities and free text, sets of flags with any bits, whole
numbers of 64 bits and days of any year, with or without bounds, ends, addresses and parents. So is
every meaning, its text if positions in the query have 64 bits at most. -/
theorem documents_lossless :
    (∀ p : Plan, Plan.ofJson? p.json = some p ∧
      ∀ text ∈ [p.json.compact, p.json.pretty], (parse? text).bind Plan.ofJson? = some p) ∧
    ∀ m : Meaning, Meaning.ofJson? m.json = some m ∧
      (m.InWords → ∀ text ∈ [m.json.compact, m.json.pretty],
        (parse? text).bind Meaning.ofJson? = some m) :=
  ⟨fun p => ⟨p.ofJson?_json, parse?_texts p.fits_json p.ofJson?_json⟩,
    fun m => ⟨m.ofJson?_json, fun h => parse?_texts (Meaning.fits_json h) m.ofJson?_json⟩⟩

/-- Images with a text that holds `sky`. -/
def skyMeaning : Meaning := ⟨[], [⟨.text, false, [.text "sky" false], .between 0 5⟩], []⟩

/-- The meaning of `'sky'` is read back from its text. -/
theorem documents_lossless_sky : skyMeaning.InWords ∧
    (parse? skyMeaning.json.compact).bind Meaning.ofJson? = some skyMeaning := by
  have hwords : skyMeaning.InWords := by
    constructor <;> simp [skyMeaning, Span.InWords, Span.between]
  exact ⟨hwords, (documents_lossless.2 skyMeaning).2 hwords _ List.mem_cons_self⟩

end PixQuery
