import Mathlib.Data.List.ProdSigma
import PixQuery.Grammar.Follow
import PixQuery.Proofs.Grammar.ItemSets

/-!
# First and follow are closed under their rules

`firstPairs` and `followPairs` are computed in a bounded number of rounds. Here is shown that the
bound cuts nothing off, so that each of their rules may be used on them.

Results:
* `first_closed`: what begins the first symbol of a body begins its key.
* `follow_start`, `follow_last`, `follow_next`: the end stands behind the start key; what stands
  behind a key stands behind the last symbol of its body; and what begins a symbol stands behind
  the one before it.
* `firstPairs_subset`, `followPairs_subset`: nothing else is in them. Any pairs that are closed
  under the rules hold them.
-/

namespace PixQuery.Grammar

variable {ps : List Production}

/-- A list of productions as it is read from a definition: there is one, and every nonterminal has
one. -/
structure WellDefined (ps : List Production) : Prop where
  nonempty : ps ≠ []
  keys : ∀ p ∈ ps, ∀ a, .nonterminal a ∈ p.body → a ∈ nonterminals ps

theorem mem_nonterminals {a : String} : a ∈ nonterminals ps ↔ ∃ p ∈ ps, p.key = a := by
  simp [nonterminals, List.mem_eraseDups]

theorem mem_terminals {t : String} :
    t ∈ terminals ps ↔ (∃ p ∈ ps, .terminal t ∈ p.body) ∨ t = eof := by
  simp only [terminals, List.mem_append, List.mem_eraseDups, List.mem_flatMap, List.mem_filterMap,
    List.mem_singleton]
  refine or_congr_left (exists_congr fun p => and_congr_right fun _ => ?_)
  constructor
  · rintro ⟨s, hs, ht⟩
    cases s with
    | terminal u =>
      obtain rfl : u = t := by simpa [Sym.terminal?] using ht
      exact hs
    | nonterminal a => simp [Sym.terminal?] at ht
  · exact fun h => ⟨_, h, rfl⟩

theorem eof_mem_terminals : eof ∈ terminals ps := mem_terminals.mpr (Or.inr rfl)

theorem mem_image {pairs : List (String × String)} {a t : String} :
    t ∈ image pairs a ↔ (a, t) ∈ pairs := by
  simp only [image, List.mem_filterMap]
  constructor
  · rintro ⟨⟨b, u⟩, hp, h⟩
    split at h
    · rename_i hb
      obtain rfl := Option.some.inj h
      exact hb ▸ hp
    · simp at h
  · exact fun h => ⟨_, h, by simp⟩

/-! ## First -/

theorem mem_firstStep {first : List (String × String)} {a t : String} :
    (a, t) ∈ firstStep ps first ↔ ∃ p ∈ ps, p.key = a ∧ t ∈ firstOf first p.first := by
  simp only [firstStep, List.mem_flatMap, List.mem_map, Prod.mk.injEq]
  refine exists_congr fun p => and_congr_right fun _ => ?_
  constructor
  · rintro ⟨u, hu, rfl, rfl⟩
    exact ⟨rfl, hu⟩
  · rintro ⟨rfl, ht⟩
    exact ⟨t, ht, rfl, rfl⟩

/-- The second component is a terminal of the grammar. -/
def EndsInTerminal (ps : List Production) (pair : String × String) : Prop :=
  pair.2 ∈ terminals ps

theorem mem_terminals_of_firstOf {first : List (String × String)}
    (hfirst : ∀ pair ∈ first, EndsInTerminal ps pair) {p : Production} (hp : p ∈ ps) {x : Sym}
    (hx : x ∈ p.body) {t : String} (ht : t ∈ firstOf first x) : t ∈ terminals ps := by
  cases x with
  | terminal u =>
    obtain rfl : t = u := by simpa [firstOf] using ht
    exact mem_terminals.mpr (Or.inl ⟨p, hp, hx⟩)
  | nonterminal a => exact hfirst (a, t) (mem_image.mp ht)

theorem stocked_firstStep :
    Stocked (firstStep ps) (EndsInTerminal ps) (nonterminals ps ×ˢ terminals ps) where
  step_mem first hfirst := by
    rintro ⟨a, t⟩ h
    obtain ⟨p, hp, rfl, ht⟩ := mem_firstStep.mp h
    exact List.mem_product.mpr ⟨mem_nonterminals.mpr ⟨p, hp, rfl⟩,
      mem_terminals_of_firstOf hfirst hp List.mem_cons_self ht⟩
  scope_of_mem _ h := (List.mem_product.mp h).2

theorem missing_pairs_le (facts : List (String × String)) :
    missing (nonterminals ps ×ˢ terminals ps) facts ≤ pairBound ps := by
  have hle := missing_le_length (nonterminals ps ×ˢ terminals ps) facts
  rwa [List.length_product] at hle

/-- What begins the first symbol of a body begins its key. -/
theorem first_closed {p : Production} (hp : p ∈ ps) {t : String}
    (ht : t ∈ firstOf (firstPairs ps) p.first) : (p.key, t) ∈ firstPairs ps :=
  saturate_closed stocked_firstStep _ _ (fun _ h => absurd h List.not_mem_nil)
    (missing_pairs_le _) _ (mem_firstStep.mpr ⟨p, hp, rfl, ht⟩)

theorem firstOf_subset {first first' : List (String × String)} (h : first ⊆ first') (x : Sym) :
    firstOf first x ⊆ firstOf first' x := by
  cases x with
  | terminal t => exact List.Subset.refl _
  | nonterminal a => exact fun t ht => mem_image.mpr (h (mem_image.mp ht))

theorem firstStep_subset {first first' : List (String × String)} (h : first ⊆ first') :
    firstStep ps first ⊆ firstStep ps first' := by
  rintro ⟨a, t⟩ ht
  obtain ⟨p, hp, hkey, ht⟩ := mem_firstStep.mp ht
  exact mem_firstStep.mpr ⟨p, hp, hkey, firstOf_subset h p.first ht⟩

/-- **The first pairs are the least** that are closed under their rule. -/
theorem firstPairs_subset {first : List (String × String)} (h : firstStep ps first ⊆ first) :
    firstPairs ps ⊆ first :=
  saturate_invariant (P := (· ∈ first)) (fun _ hfacts _ hp => h (firstStep_subset hfacts hp)) _
    (fun _ h => absurd h List.not_mem_nil)

theorem firstPairs_endsInTerminal : ∀ pair ∈ firstPairs ps, EndsInTerminal ps pair :=
  saturate_invariant
    (fun first h pair hp => stocked_firstStep.scope_of_mem _
      (stocked_firstStep.step_mem first h pair hp))
    _ (fun _ h => absurd h List.not_mem_nil)

/-! ## Follow -/

/-- The terminals that a rule puts behind a symbol with `rest` behind it, in a body of `key`. -/
def behind (first follow : List (String × String)) (key : String) : List Sym → List String
  | [] => image follow key
  | next :: _ => firstOf first next

theorem followInBody_nonterminal (first follow : List (String × String)) (key b : String)
    (body : List Sym) : followInBody first follow key (.nonterminal b :: body) =
      (behind first follow key body).map (fun t => (b, t)) ++
        followInBody first follow key body := by
  cases body <;> rfl

theorem mem_followInBody {first follow : List (String × String)} {key a t : String} :
    ∀ {body : List Sym}, (a, t) ∈ followInBody first follow key body ↔
      ∃ before rest, body = before ++ .nonterminal a :: rest ∧ t ∈ behind first follow key rest
  | [] => by simp [followInBody]
  | .terminal u :: body => by
    rw [followInBody, mem_followInBody]
    constructor
    · rintro ⟨before, rest, rfl, ht⟩
      exact ⟨.terminal u :: before, rest, rfl, ht⟩
    · rintro ⟨before, rest, heq, ht⟩
      cases before with
      | nil => simp at heq
      | cons x before => exact ⟨before, rest, (List.cons.inj heq).2, ht⟩
  | .nonterminal b :: body => by
    rw [followInBody_nonterminal, List.mem_append, mem_followInBody]
    constructor
    · rintro (h | ⟨before, rest, rfl, ht⟩)
      · obtain ⟨u, hu, heq⟩ := List.mem_map.mp h
        obtain ⟨rfl, rfl⟩ := Prod.mk.inj heq
        exact ⟨[], body, rfl, hu⟩
      · exact ⟨.nonterminal b :: before, rest, rfl, ht⟩
    · rintro ⟨before, rest, heq, ht⟩
      cases before with
      | nil =>
        obtain ⟨hb, rfl⟩ := List.cons.inj heq
        obtain rfl := Sym.nonterminal.inj hb
        exact Or.inl (List.mem_map.mpr ⟨t, ht, rfl⟩)
      | cons x before => exact Or.inr ⟨before, rest, (List.cons.inj heq).2, ht⟩

theorem mem_followStep {first follow : List (String × String)} {a t : String} :
    (a, t) ∈ followStep ps first follow ↔ ∃ p ∈ ps, ∃ before rest,
      p.body = before ++ .nonterminal a :: rest ∧ t ∈ behind first follow p.key rest := by
  simp only [followStep, List.mem_flatMap, mem_followInBody]

theorem stocked_followStep (h : WellDefined ps) :
    Stocked (followStep ps (firstPairs ps)) (EndsInTerminal ps)
      (nonterminals ps ×ˢ terminals ps) where
  step_mem follow hfollow := by
    rintro ⟨a, t⟩ hmem
    obtain ⟨p, hp, before, rest, hbody, ht⟩ := mem_followStep.mp hmem
    have ha : a ∈ nonterminals ps := h.keys p hp a (by simp [hbody])
    refine List.mem_product.mpr ⟨ha, ?_⟩
    cases rest with
    | nil => exact hfollow (p.key, t) (mem_image.mp ht)
    | cons x rest =>
      exact mem_terminals_of_firstOf firstPairs_endsInTerminal hp (x := x) (by simp [hbody]) ht
  scope_of_mem _ h := (List.mem_product.mp h).2

theorem start_endsInTerminal :
    ∀ pair ∈ [(startKey ps, eof)], EndsInTerminal ps pair := by
  intro pair h
  rw [List.mem_singleton.mp h]
  exact eof_mem_terminals

theorem follow_closed (h : WellDefined ps) {p : Production} (hp : p ∈ ps)
    {before rest : List Sym} {a t : String} (hbody : p.body = before ++ .nonterminal a :: rest)
    (ht : t ∈ behind (firstPairs ps) (followPairs ps) p.key rest) : (a, t) ∈ followPairs ps :=
  saturate_closed (stocked_followStep h) _ _ start_endsInTerminal (missing_pairs_le _) _
    (mem_followStep.mpr ⟨p, hp, before, rest, hbody, ht⟩)

theorem behind_subset {first first' follow follow' : List (String × String)} (h : first ⊆ first')
    (h' : follow ⊆ follow') (key : String) (rest : List Sym) :
    behind first follow key rest ⊆ behind first' follow' key rest := by
  cases rest with
  | nil => exact fun t ht => mem_image.mpr (h' (mem_image.mp ht))
  | cons next _ => exact firstOf_subset h next

theorem followStep_subset {first first' follow follow' : List (String × String)}
    (h : first ⊆ first') (h' : follow ⊆ follow') :
    followStep ps first follow ⊆ followStep ps first' follow' := by
  rintro ⟨a, t⟩ ht
  obtain ⟨p, hp, before, rest, hbody, ht⟩ := mem_followStep.mp ht
  exact mem_followStep.mpr ⟨p, hp, before, rest, hbody, behind_subset h h' p.key rest ht⟩

/-- **The follow pairs are the least** that are closed under their rules. -/
theorem followPairs_subset {first follow : List (String × String)} (hfirst : firstPairs ps ⊆ first)
    (hstart : (startKey ps, eof) ∈ follow) (h : followStep ps first follow ⊆ follow) :
    followPairs ps ⊆ follow :=
  saturate_invariant (P := (· ∈ follow))
    (fun _ hfacts _ hp => h (followStep_subset hfirst hfacts hp)) _
    (fun _ hpair => List.mem_singleton.mp hpair ▸ hstart)

/-- The end of the sentence can stand behind the start key. -/
theorem follow_start : (startKey ps, eof) ∈ followPairs ps :=
  mem_saturate_of_mem _ (List.mem_singleton.mpr rfl)

/-- What stands behind a key stands behind the last symbol of its body. -/
theorem follow_last (h : WellDefined ps) {p : Production} (hp : p ∈ ps) {before : List Sym}
    {a t : String} (hbody : p.body = before ++ [.nonterminal a])
    (ht : (p.key, t) ∈ followPairs ps) : (a, t) ∈ followPairs ps :=
  follow_closed h hp hbody (mem_image.mpr ht)

/-- What begins a symbol stands behind the nonterminal before it. -/
theorem follow_next (h : WellDefined ps) {p : Production} (hp : p ∈ ps) {before rest : List Sym}
    {a t : String} {x : Sym} (hbody : p.body = before ++ .nonterminal a :: x :: rest)
    (ht : t ∈ firstOf (firstPairs ps) x) : (a, t) ∈ followPairs ps :=
  follow_closed h hp hbody ht

/-- Only terminals stand behind a nonterminal. -/
theorem mem_terminals_of_follow (h : WellDefined ps) {a t : String}
    (ht : (a, t) ∈ followPairs ps) : t ∈ terminals ps :=
  saturate_invariant (P := EndsInTerminal ps)
    (fun follow hf pair hp => (stocked_followStep h).scope_of_mem _
      ((stocked_followStep h).step_mem follow hf pair hp))
    _ start_endsInTerminal (a, t) ht

end PixQuery.Grammar
