import Mathlib.Data.List.Basic
import PixQuery.Grammar.Saturation

/-!
# Saturation is exact

`saturate` stops after a bounded number of rounds. When everything that a step can conclude comes
from a finite stock, and there are as many rounds as facts in stock, nothing is cut off.

Results:
* `saturate_closed`: what the step concludes from the saturated facts is among them.
* `saturate_invariant`: a property that the step keeps holds of all saturated facts.
-/

namespace PixQuery

variable {α : Type} [BEq α] [LawfulBEq α] {step : List α → List α}

theorem mem_newFacts {facts : List α} {a : α} :
    a ∈ newFacts step facts ↔ a ∈ step facts ∧ a ∉ facts := by
  simp [newFacts, List.mem_eraseDups]

/-- The step concludes nothing but `stock` from facts that all are in `scope`. -/
structure Stocked (step : List α → List α) (scope : α → Prop) (stock : List α) : Prop where
  step_mem : ∀ facts, (∀ a ∈ facts, scope a) → ∀ a ∈ step facts, a ∈ stock
  scope_of_mem : ∀ a ∈ stock, scope a

/-- How many facts in stock are still missing. -/
def missing (stock facts : List α) : Nat := stock.countP fun a => !facts.contains a

theorem missing_append_lt {stock facts new : List α} {a : α} (ha : a ∈ stock) (hnew : a ∈ new)
    (hfacts : a ∉ facts) : missing stock (facts ++ new) < missing stock facts := by
  unfold missing
  induction stock with
  | nil => exact absurd ha List.not_mem_nil
  | cons b stock ih =>
    have hle : stock.countP (fun a => !(facts ++ new).contains a) ≤
        stock.countP (fun a => !facts.contains a) :=
      List.countP_mono_left fun x _ hx => by
        simp only [List.contains_append, Bool.not_or, Bool.and_eq_true] at hx
        exact hx.1
    rcases List.mem_cons.mp ha with rfl | ha
    · rw [List.countP_cons_of_neg (by simp [hnew]), List.countP_cons_of_pos (by simpa using hfacts)]
      omega
    · have hlt := ih ha
      rw [List.countP_cons, List.countP_cons]
      have hb : (if (!(facts ++ new).contains b) = true then 1 else 0) ≤
          (if (!facts.contains b) = true then 1 else 0) := by
        by_cases h : b ∈ facts <;> simp [h]
        split <;> omega
      omega

/-- **A saturated list is closed** when there are as many rounds as facts missing from it. -/
theorem saturate_closed {scope : α → Prop} {stock : List α} (h : Stocked step scope stock) :
    ∀ (n : Nat) (facts : List α), (∀ a ∈ facts, scope a) → missing stock facts ≤ n →
      ∀ a ∈ step (saturate step n facts), a ∈ saturate step n facts
  | 0, facts, hscope, hmissing => by
    intro a ha
    have hstock := h.step_mem facts hscope a ha
    have hnone : missing stock facts = 0 := Nat.le_zero.mp hmissing
    rw [missing, List.countP_eq_zero] at hnone
    simpa only [saturate, Bool.not_eq_true', Bool.not_eq_false, List.contains_iff_mem] using
      hnone a hstock
  | n + 1, facts, hscope, hmissing => by
    unfold saturate
    split
    · rename_i hnew
      intro a ha
      by_contra hfacts
      have hmem : a ∈ newFacts step facts := mem_newFacts.mpr ⟨ha, hfacts⟩
      rw [hnew] at hmem
      exact absurd hmem List.not_mem_nil
    · rename_i hnew
      have hsub : ∀ a ∈ newFacts step facts, a ∈ stock ∧ a ∉ facts := fun a ha =>
        have hmem := mem_newFacts.mp ha
        ⟨h.step_mem facts hscope a hmem.1, hmem.2⟩
      obtain ⟨a, ha⟩ := List.exists_mem_of_ne_nil _ hnew
      have hlt := missing_append_lt (hsub a ha).1 ha (hsub a ha).2
      refine saturate_closed h n _ (fun b hb => ?_) (by omega)
      rcases List.mem_append.mp hb with hb | hb
      · exact hscope b hb
      · exact h.scope_of_mem b (hsub b hb).1

/-- What the step keeps holds of everything that is saturated. -/
theorem saturate_invariant {P : α → Prop}
    (hstep : ∀ facts, (∀ a ∈ facts, P a) → ∀ a ∈ step facts, P a) :
    ∀ (n : Nat) {facts : List α}, (∀ a ∈ facts, P a) → ∀ a ∈ saturate step n facts, P a
  | 0, _, h => h
  | n + 1, facts, h => by
    unfold saturate
    split
    · exact h
    · refine saturate_invariant hstep n fun a ha => ?_
      rcases List.mem_append.mp ha with ha | ha
      · exact h a ha
      · exact hstep facts h a (mem_newFacts.mp ha).1

omit [LawfulBEq α] in
theorem missing_le_length (stock facts : List α) : missing stock facts ≤ stock.length :=
  List.countP_le_length

end PixQuery
