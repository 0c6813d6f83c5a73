import Mathlib.Data.List.TakeWhile
import PixQuery.Text.Blank
import PixQuery.Text.Lowercase

/-!
# Lower case of a beginning

A text in lower case begins with the lower case of each of its beginnings, except where the
beginning ends in a sigma. There the sigma is final when it is written alone, and is not in the
whole text if more letters follow: `ας` is no beginning of `ασα`. No other character depends on
those behind it.

Results:
* `Text.lowerFrom_append`: what the lower case of a part depends on.
* `Text.isPrefix_lower_iff`: when the lower case of a beginning is a beginning.
* `Text.occursIn_iff`: what stands in a text.
-/

namespace PixQuery.Text

/-! ## Parts of a text -/

theorem occursIn_iff {part : List Char} : ∀ {cs : List Char},
    occursIn part cs = true ↔ ∃ before after, cs = before ++ part ++ after
  | [] => by simp [occursIn, List.isEmpty_iff]
  | c :: cs => by
    rw [occursIn, Bool.or_eq_true, List.isPrefixOf_iff_prefix, occursIn_iff]
    constructor
    · rintro (⟨after, h⟩ | ⟨before, after, rfl⟩)
      · exact ⟨[], after, h.symm⟩
      · exact ⟨c :: before, after, rfl⟩
    · rintro ⟨_ | ⟨d, before⟩, after, h⟩
      · exact .inl ⟨after, h.symm⟩
      · exact .inr ⟨before, after, (List.cons.inj h).2⟩

/-! ## What lower case depends on -/

variable {before cs ds rest rest' : List Char} {c : Char}

/-- The lower case of `cs` behind `before`, where `after` follows. -/
def lowerIn (before cs after : List Char) : List Char :=
  match cs with
  | [] => []
  | c :: cs => lowerChar before c (cs ++ after) ++ lowerIn (c :: before) cs after

/-- **Each part of a text** is written in lower case for itself, with what stands around it in
view. -/
theorem lowerFrom_append : ∀ {before cs : List Char},
    lowerFrom before (cs ++ rest) = lowerIn before cs rest ++ lowerFrom (cs.reverse ++ before) rest
  | _, [] => rfl
  | before, c :: cs => by
    rw [List.cons_append, lowerFrom, lowerFrom_append, lowerIn,
      List.append_assoc, List.reverse_cons, List.append_assoc, List.singleton_append]

theorem lowerIn_nil : lowerIn before cs [] = lowerFrom before cs := by
  have h := @lowerFrom_append [] before cs
  rwa [List.append_nil, lowerFrom, List.append_nil, eq_comm] at h

theorem lowerIn_append : ∀ {before cs : List Char}, lowerIn before (cs ++ ds) rest =
    lowerIn before cs (ds ++ rest) ++ lowerIn (cs.reverse ++ before) ds rest
  | _, [] => rfl
  | before, c :: cs => by
    rw [List.cons_append, lowerIn, lowerIn_append, lowerIn, List.append_assoc, List.append_assoc,
      List.reverse_cons, List.append_assoc, List.singleton_append]

/-- Whether all characters are passed over where a sigma asks for letters around it. -/
def ArePassedOver (cs : List Char) : Prop :=
  ∀ c ∈ cs, inStretches caseIgnorableStretches c = true

theorem meetsCase_append_of_passed (h : ArePassedOver cs) :
    meetsCase (cs ++ rest) = meetsCase rest := by
  have hdrop : cs.dropWhile (inStretches caseIgnorableStretches) = [] :=
    List.dropWhile_eq_nil_iff.mpr h
  rw [meetsCase, meetsCase, List.dropWhile_append, hdrop]
  rfl

theorem meetsCase_append_of_not_passed (h : ¬ ArePassedOver cs) :
    meetsCase (cs ++ rest) = meetsCase cs := by
  obtain ⟨c, ds, hdrop⟩ := List.exists_cons_of_ne_nil (mt List.dropWhile_eq_nil_iff.mp h)
  rw [meetsCase, meetsCase, List.dropWhile_append, hdrop]
  rfl

/-- Of what follows, only whether the next letter has case makes a difference. -/
theorem meetsCase_append_congr (h : meetsCase rest = meetsCase rest') :
    meetsCase (cs ++ rest) = meetsCase (cs ++ rest') := by
  by_cases hcs : ArePassedOver cs
  · rw [meetsCase_append_of_passed hcs, meetsCase_append_of_passed hcs, h]
  · rw [meetsCase_append_of_not_passed hcs, meetsCase_append_of_not_passed hcs]

theorem lowerChar_congr (h : c = 'Σ' → meetsCase before = true → meetsCase cs = meetsCase ds) :
    lowerChar before c cs = lowerChar before c ds := by
  unfold lowerChar
  split
  · rfl
  split
  · rename_i hc
    cases hbefore : meetsCase before with
    | false => rfl
    | true => rw [h hc hbefore]
  · rfl

theorem lowerIn_congr (h : meetsCase rest = meetsCase rest') : ∀ {before cs : List Char},
    lowerIn before cs rest = lowerIn before cs rest'
  | _, [] => rfl
  | before, c :: cs => by
    rw [lowerIn, lowerIn, lowerIn_congr h,
      lowerChar_congr fun _ _ => meetsCase_append_congr h]

/-! ## Beginnings -/

/-- Whether a beginning ends in a sigma that is final in it and not in the whole text: there are
letters before it and in what follows, and nothing but marks between them. -/
def CutsSigma (start rest : List Char) : Prop :=
  ∃ front marks, start = front ++ 'Σ' :: marks ∧ ArePassedOver marks ∧
    meetsCase front.reverse = true ∧ meetsCase rest = true

/-- What follows makes no difference to a beginning that does not end in a sigma, nor to one with no
letter before the sigma. -/
theorem lowerIn_of_not_cut : ∀ {before cs : List Char},
    (∀ front marks, cs = front ++ 'Σ' :: marks → ArePassedOver marks →
      meetsCase (front.reverse ++ before) = true → meetsCase rest = false) →
    lowerIn before cs rest = lowerIn before cs []
  | _, [], _ => rfl
  | before, c :: cs, h => by
    have htail : lowerIn (c :: before) cs rest = lowerIn (c :: before) cs [] :=
      lowerIn_of_not_cut fun front marks hcs hmarks hfront =>
        h (c :: front) marks (by rw [hcs, List.cons_append]) hmarks
          (by rwa [List.reverse_cons, List.append_assoc, List.singleton_append])
    rw [lowerIn, lowerIn, htail]
    congr 1
    refine lowerChar_congr fun hc hbefore => ?_
    by_cases hcs : ArePassedOver cs
    · have hrest : meetsCase rest = false := h [] cs (by rw [hc, List.nil_append]) hcs hbefore
      rw [meetsCase_append_of_passed hcs, meetsCase_append_of_passed hcs, hrest]
      rfl
    · rw [meetsCase_append_of_not_passed hcs, meetsCase_append_of_not_passed hcs]

theorem lowerChar_sigma (before after : List Char) : lowerChar before 'Σ' after =
    [if meetsCase before && !meetsCase after then 'ς' else 'σ'] := by
  rw [lowerChar, if_neg (by decide), if_pos rfl]

theorem meetsCase_sigma (cs : List Char) : meetsCase ('Σ' :: cs) = true := by
  have hstays : ¬ inStretches caseIgnorableStretches 'Σ' = true := by decide +kernel
  have hcased : inStretches casedStretches 'Σ' = true := by decide +kernel
  rw [meetsCase, List.dropWhile_cons_of_neg hstays]
  exact hcased

/-- **When the lower case of a beginning is a beginning** of the lower case: just when no sigma at
its end is cut off from the letters behind it. -/
theorem isPrefix_lower_iff {start rest : List Char} :
    lower start <+: lower (start ++ rest) ↔ ¬ CutsSigma start rest := by
  constructor
  · rintro hprefix ⟨front, marks, rfl, hmarks, hfront, hrest⟩
    have hsame : lowerIn [] front (('Σ' :: marks) ++ []) =
        lowerIn [] front (('Σ' :: marks) ++ rest) :=
      lowerIn_congr (by rw [List.cons_append, List.cons_append, meetsCase_sigma, meetsCase_sigma])
    have hstart : lower (front ++ 'Σ' :: marks) = lowerIn [] front (('Σ' :: marks) ++ rest) ++
        lowerIn front.reverse ('Σ' :: marks) [] := by
      rw [lower, ← lowerIn_nil, lowerIn_append, hsame, List.append_nil]
    have hwhole : lower (front ++ 'Σ' :: marks ++ rest) =
        lowerIn [] front (('Σ' :: marks) ++ rest) ++ (lowerIn front.reverse ('Σ' :: marks) rest ++
          lowerFrom (front ++ 'Σ' :: marks).reverse rest) := by
      rw [lower, lowerFrom_append, lowerIn_append, List.append_nil, List.append_nil,
        List.append_assoc]
    rw [hstart, hwhole, List.prefix_append_right_inj, lowerIn, lowerIn, lowerChar_sigma,
      lowerChar_sigma, meetsCase_append_of_passed hmarks, meetsCase_append_of_passed hmarks, hrest,
      hfront] at hprefix
    have hletter := (List.cons_prefix_cons.mp hprefix).1
    revert hletter
    decide
  · intro hcut
    have hsame : lowerIn [] start rest = lowerIn [] start [] :=
      lowerIn_of_not_cut fun front marks hstart hmarks hfront => by
        cases hrest : meetsCase rest with
        | false => rfl
        | true => exact absurd ⟨front, marks, hstart, hmarks, by simpa using hfront, hrest⟩ hcut
    rw [lower, lower, lowerFrom_append, hsame, lowerIn_nil]
    exact List.prefix_append _ _

end PixQuery.Text
