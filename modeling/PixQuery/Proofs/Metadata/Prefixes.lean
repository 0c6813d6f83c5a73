import PixQuery.Proofs.Metadata.Entities
import PixQuery.Proofs.Text.Lowercase

/-!
# What the beginning of a name is completed to

While a name is typed, those entities are offered that have a name with the typed text in it. Both
are written in lower case for themselves before they are compared. So the beginning of a name offers
its entity, unless the typed text ends in a sigma and letters follow it in the name: the typed sigma
is written as a final one then, and the sigma of the name is not.

Results:
* `Snapshot.mem_byPrefix_iff`: which entities are offered.
* `Snapshot.isOffered_iff`: when the beginning of a name offers its entity.
-/

namespace PixQuery

open Text (lower CutsSigma)

namespace Snapshot

variable {s : Snapshot} {kind : Kind} {e : Entity}

/-- The names that an entity is found by. -/
def namesOf (e : Entity) : List String := e.name :: e.otherNames

theorem mem_byPrefix_iff {address : List NamePart} {typed : String} :
    e ∈ s.byPrefix kind address typed ↔
      e ∈ s.entities kind ∧ s.isAt (address.map Matcher.ofPart) e = true ∧
        ∃ name ∈ namesOf e, ∃ before after,
          lower name.toList = before ++ lower typed.toList ++ after := by
  rw [byPrefix, mem_select_iff]
  simp only [namesOf, List.mem_cons, exists_eq_or_imp, Bool.or_eq_true, List.any_eq_true,
    Text.occursIn_iff]

/-- **When the beginning of a name offers its entity**: always if it does not end in a sigma that is
cut off from letters behind it. Else the typed text does not stand at the beginning of the name any
more, and the entity is offered only if it stands somewhere else in its names. -/
theorem isOffered_iff (he : e ∈ s.entities kind) {name typed : String} {rest : List Char}
    (hname : name ∈ namesOf e) (hstart : name.toList = typed.toList ++ rest) :
    e ∈ s.byPrefix kind [] typed ↔
      ¬ CutsSigma typed.toList rest ∨ ∃ other ∈ namesOf e, ∃ before after,
        lower other.toList = before ++ lower typed.toList ++ after ∧
          (other = name → before ≠ []) := by
  have hprefix := @Text.isPrefix_lower_iff typed.toList rest
  rw [← hstart] at hprefix
  rw [mem_byPrefix_iff, ← hprefix]
  constructor
  · rintro ⟨-, -, other, hother, before, after, hlower⟩
    by_cases hfront : other = name ∧ before = []
    · obtain ⟨rfl, rfl⟩ := hfront
      exact .inl ⟨after, hlower.symm⟩
    · exact .inr ⟨other, hother, before, after, hlower, not_and.mp hfront⟩
  · intro h
    refine ⟨he, isAt_nil s e, ?_⟩
    rcases h with ⟨after, hlower⟩ | ⟨other, hother, before, after, hlower, -⟩
    · exact ⟨name, hname, [], after, hlower.symm⟩
    · exact ⟨other, hother, before, after, hlower⟩

/-- A tag whose name has a sigma between letters. -/
def sigmaTag : Tag := ⟨1, "ΑΣΑ", [], none, .empty, []⟩

/-- Only this tag. -/
def sigmas : Snapshot := ⟨[sigmaTag], [], [], []⟩

theorem isOffered_sigma : .tag sigmaTag ∈ sigmas.entities .tag ∧ "ΑΣΑ" ∈ namesOf (.tag sigmaTag) ∧
    "ΑΣΑ".toList = "Α".toList ++ ['Σ', 'Α'] ∧ .tag sigmaTag ∈ sigmas.byPrefix .tag [] "Α" := by
  have hmem : .tag sigmaTag ∈ sigmas.entities .tag := by decide
  have hname : "ΑΣΑ" ∈ namesOf (.tag sigmaTag) := by decide
  have hstart : "ΑΣΑ".toList = "Α".toList ++ ['Σ', 'Α'] := by decide
  refine ⟨hmem, hname, hstart, (isOffered_iff hmem hname hstart).mpr (.inl ?_)⟩
  rintro ⟨front, marks, h, -⟩
  have hsigma : 'Σ' ∈ "Α".toList := h ▸ List.mem_append_right front List.mem_cons_self
  revert hsigma
  decide

/-- The two letters `ΑΣ` begin the name of the tag and do not offer it: `ας` is not in `ασα`. -/
theorem not_isOffered_sigma : .tag sigmaTag ∈ sigmas.entities .tag ∧
    "ΑΣΑ" ∈ namesOf (.tag sigmaTag) ∧ "ΑΣΑ".toList = "ΑΣ".toList ++ ['Α'] ∧
      .tag sigmaTag ∉ sigmas.byPrefix .tag [] "ΑΣ" := by
  decide +kernel

end Snapshot

end PixQuery
