import PixQuery.Proofs.Grammar.Saturation

/-!
# Rules that are used in place

`saturate` works in rounds: all rules see the same facts, and what they conclude is added behind
them. The rules may also be used one after the other, so that each sees what was added just before
it, and passes over all of them be made until one pass adds nothing. Such a loop is `Repeats`. It
ends when everything that can be concluded comes from a finite stock, and it finds what the rounds
find.

Results:
* `exists_repeats`: the loop ends, after no more passes than facts are missing.
* `mem_iff_of_repeats`: it finds what `saturate` finds.
-/

namespace PixQuery

variable {α : Type} [BEq α]

/-- One pass: each rule in turn adds what it concludes. -/
def pass (rules : List (List α → List α)) (facts : List α) : List α :=
  rules.foldl (fun facts rule => facts ++ newFacts rule facts) facts

/-- Passes are made until one changes nothing; `n` of them have changed something. -/
inductive Repeats (rules : List (List α → List α)) : List α → Nat → List α → Prop
  | settled {facts : List α} (h : pass rules facts = facts) : Repeats rules facts 0 facts
  | again {facts result : List α} {n : Nat} (h : pass rules facts ≠ facts)
    (hnext : Repeats rules (pass rules facts) n result) : Repeats rules facts (n + 1) result

/-- The step concludes what the rules do, each from the same facts. -/
def Gathers (step : List α → List α) (rules : List (List α → List α)) : Prop :=
  ∀ facts a, a ∈ step facts ↔ ∃ rule ∈ rules, a ∈ rule facts

variable {rules : List (List α → List α)} {step : List α → List α} {facts result : List α} {n : Nat}

theorem pass_cons (rule : List α → List α) :
    pass (rule :: rules) facts = pass rules (facts ++ newFacts rule facts) := rfl

theorem prefix_pass : ∀ {rules : List (List α → List α)} {facts : List α},
    facts <+: pass rules facts
  | [], _ => List.prefix_rfl
  | _ :: _, facts => (List.prefix_append facts _).trans prefix_pass

theorem Repeats.subset (h : Repeats rules facts n result) : facts ⊆ result := by
  induction h with
  | settled => exact List.Subset.refl _
  | again _ _ ih => exact List.Subset.trans prefix_pass.subset ih

variable [LawfulBEq α]

theorem newFacts_eq_nil_iff {rule : List α → List α} :
    newFacts rule facts = [] ↔ rule facts ⊆ facts := by
  rw [List.eq_nil_iff_forall_not_mem]
  simp only [mem_newFacts, not_and, not_not]
  rfl

/-- A pass changes nothing when no rule concludes anything new. -/
theorem pass_eq_self_iff : ∀ {rules : List (List α → List α)},
    pass rules facts = facts ↔ ∀ rule ∈ rules, rule facts ⊆ facts
  | [] => ⟨fun _ => nofun, fun _ => rfl⟩
  | rule :: rules => by
    rw [List.forall_mem_cons, ← newFacts_eq_nil_iff, ← pass_eq_self_iff, pass_cons]
    constructor
    · intro h
      have hnil : newFacts rule facts = [] := by
        have hle := (@prefix_pass α _ rules (facts ++ newFacts rule facts)).length_le
        rw [h, List.length_append] at hle
        exact List.length_eq_zero_iff.mp (by omega)
      rw [hnil, List.append_nil] at h
      exact ⟨hnil, h⟩
    · rintro ⟨hnil, h⟩
      rw [hnil, List.append_nil, h]

/-- What each rule keeps, a pass keeps. -/
theorem pass_invariant {P : α → Prop} : ∀ {rules : List (List α → List α)} {facts : List α},
    (∀ rule ∈ rules, ∀ facts, (∀ a ∈ facts, P a) → ∀ a ∈ rule facts, P a) →
      (∀ a ∈ facts, P a) → ∀ a ∈ pass rules facts, P a
  | [], _, _, h => h
  | rule :: rules, facts, hrules, h => by
    obtain ⟨hrule, hrules⟩ := List.forall_mem_cons.mp hrules
    rw [pass_cons]
    refine pass_invariant hrules fun a ha => ?_
    rcases List.mem_append.mp ha with ha | ha
    · exact h a ha
    · exact hrule facts h a (mem_newFacts.mp ha).1

/-- A pass adds facts in stock that were missing. -/
theorem exists_new {scope : α → Prop} {stock : List α} :
    ∀ {rules : List (List α → List α)} {facts : List α},
      (∀ rule ∈ rules, Stocked rule scope stock) → (∀ a ∈ facts, scope a) →
        ∃ new, pass rules facts = facts ++ new ∧ ∀ a ∈ new, a ∈ stock ∧ a ∉ facts
  | [], facts, _, _ => ⟨[], (List.append_nil facts).symm, nofun⟩
  | rule :: rules, facts, hrules, hscope => by
    obtain ⟨hrule, hrules⟩ := List.forall_mem_cons.mp hrules
    have hadded : ∀ a ∈ newFacts rule facts, a ∈ stock ∧ a ∉ facts := fun a ha =>
      ⟨hrule.step_mem facts hscope a (mem_newFacts.mp ha).1, (mem_newFacts.mp ha).2⟩
    obtain ⟨new, hpass, hnew⟩ := @exists_new scope stock rules (facts ++ newFacts rule facts) hrules
      fun a ha => (List.mem_append.mp ha).elim (hscope a) fun ha =>
        hrule.scope_of_mem a (hadded a ha).1
    refine ⟨newFacts rule facts ++ new, by rw [pass_cons, hpass, List.append_assoc], fun a ha => ?_⟩
    rcases List.mem_append.mp ha with ha | ha
    · exact hadded a ha
    · exact ⟨(hnew a ha).1, fun hmem => (hnew a ha).2 (List.mem_append_left _ hmem)⟩

omit [BEq α] [LawfulBEq α] in
/-- The rules conclude from the stock of the step that they make up. -/
theorem Stocked.of_gathers {scope : α → Prop} {stock : List α} (h : Stocked step scope stock)
    (hgathers : Gathers step rules) : ∀ rule ∈ rules, Stocked rule scope stock := fun rule hrule =>
  ⟨fun facts hfacts a ha => h.step_mem facts hfacts a ((hgathers facts a).mpr ⟨rule, hrule, ha⟩),
    h.scope_of_mem⟩

/-- **The loop ends**: each pass that changes something finds a fact in stock that was missing. -/
theorem exists_repeats {scope : α → Prop} {stock : List α}
    (h : ∀ rule ∈ rules, Stocked rule scope stock) : ∀ (n : Nat) {facts : List α},
      (∀ a ∈ facts, scope a) → missing stock facts ≤ n → ∃ k ≤ n, ∃ result,
        Repeats rules facts k result
  | n, facts, hscope, hmissing => by
    by_cases hfixed : pass rules facts = facts
    · exact ⟨0, Nat.zero_le n, facts, .settled hfixed⟩
    obtain ⟨new, hpass, hnew⟩ := exists_new h hscope
    obtain ⟨a, ha⟩ := List.exists_mem_of_ne_nil new fun hnil =>
      hfixed (by rw [hpass, hnil, List.append_nil])
    -- the stock runs out: a pass that changes something leaves less of it missing
    have hlt := missing_append_lt (hnew a ha).1 ha (hnew a ha).2
    rw [← hpass] at hlt
    match n with
    | 0 => omega
    | n + 1 =>
      have hscope' : ∀ a ∈ pass rules facts, scope a :=
        pass_invariant (fun rule hrule known hknown a ha =>
          (h rule hrule).scope_of_mem a ((h rule hrule).step_mem known hknown a ha)) hscope
      obtain ⟨k, hk, result, hresult⟩ := exists_repeats h n hscope' (by omega)
      exact ⟨k + 1, Nat.succ_le_succ hk, result, .again hfixed hresult⟩

namespace Repeats

theorem invariant {P : α → Prop}
    (hrules : ∀ rule ∈ rules, ∀ facts, (∀ a ∈ facts, P a) → ∀ a ∈ rule facts, P a)
    (h : Repeats rules facts n result) (hfacts : ∀ a ∈ facts, P a) : ∀ a ∈ result, P a := by
  induction h with
  | settled => exact hfacts
  | again _ _ ih => exact ih (pass_invariant hrules hfacts)

/-- In the end no rule concludes anything new. -/
theorem closed (h : Repeats rules facts n result) : ∀ rule ∈ rules, rule result ⊆ result := by
  induction h with
  | settled hfixed => exact pass_eq_self_iff.mp hfixed
  | again _ _ ih => exact ih

end Repeats

/-- **The loop finds what the rounds find**, if these are closed and no conclusion is lost when
facts are added. -/
theorem mem_iff_of_repeats (hgathers : Gathers step rules)
    (hmono : ∀ {facts facts' : List α}, facts ⊆ facts' → step facts ⊆ step facts') {rounds : Nat}
    (hclosed : step (saturate step rounds facts) ⊆ saturate step rounds facts)
    (h : Repeats rules facts n result) : ∀ a, a ∈ result ↔ a ∈ saturate step rounds facts := by
  refine fun a => ⟨fun ha => ?_, fun ha => ?_⟩
  · refine h.invariant (P := (· ∈ saturate step rounds facts))
      (fun rule hrule known hknown b hb => ?_)
      (fun b hb => mem_saturate_of_mem rounds hb) a ha
    exact hclosed (hmono hknown ((hgathers known b).mpr ⟨rule, hrule, hb⟩))
  · refine saturate_invariant (P := (· ∈ result)) (fun known hknown b hb => ?_) rounds h.subset a ha
    obtain ⟨rule, hrule, hb⟩ := (hgathers result b).mp (hmono hknown hb)
    exact h.closed rule hrule hb

end PixQuery
