import PixQuery.Proofs.Grammar.Steps

/-!
# How many steps the parser makes

Reading a token, applying a production of two symbols or more, and beginning anew behind an error
make a configuration lighter. A production of one symbol leaves its weight, and only gives the tree
on top a new root. Between two such steps with the same key the same would happen again and again,
so a parser that comes to an end gives no two roots of one key to a tree at one place: the steps are
bounded by the number of tokens and of keys, and `Parser.fuelFor` is no limit for it.

Results:
* `HaltsIn.unique`: how many steps there are depends on the states of the stack and the tokens left.
* `lighter_or_raised`: a step makes the configuration lighter, or gives the tree on top a new root.
* `HaltsIn.le_fuelFor`: a parser that comes to an end does so within its fuel.
* `tree_or_error`: a parser that comes to an end returns a tree or reports an error.
-/

namespace PixQuery

open Grammar (Leads stateAt? numbered? followPairs nonterminals Production)

namespace Parser

variable {g : Grammar} {stop : Nat} {c c' d : Configuration}

/-! ## Coming to an end -/

/-- From a configuration the parser makes so many steps, the last of which stops it. -/
inductive HaltsIn (g : Grammar) (stop : Nat) : Nat → Configuration → Prop
  | stop {c : Configuration} {tree : Option Tree} (h : (step g stop c).outcome = .stop tree) :
      HaltsIn g stop 1 c
  | go {n : Nat} {c c' : Configuration} (h : (step g stop c).outcome = .go c')
      (hn : HaltsIn g stop n c') : HaltsIn g stop (n + 1) c

/-- A configuration comes to an end when the next does. -/
theorem exists_haltsIn_of_go
    (h : ∀ c', (step g stop c).outcome = .go c' → ∃ n, HaltsIn g stop n c') :
    ∃ n, HaltsIn g stop n c := by
  cases hout : (step g stop c).outcome with
  | stop tree => exact ⟨1, .stop hout⟩
  | go c' =>
    obtain ⟨n, hn⟩ := h c' hout
    exact ⟨n + 1, .go hout hn⟩

/-- The parser comes to an end on some tokens; where there are none it makes no step. -/
def Halts (g : Grammar) (tokens : List Token) : Prop :=
  tokens ≠ [] → ∃ n, HaltsIn g (stopOf tokens) n ⟨[], tokens⟩

theorem run_of_stop {tree : Option Tree} (h : (step g stop c).outcome = .stop tree) (fuel : Nat) :
    run g stop (fuel + 1) c = ((step g stop c).event.toList, tree) := by
  simp only [run, h]

theorem run_of_go (h : (step g stop c).outcome = .go c') (fuel : Nat) :
    run g stop (fuel + 1) c =
      ((step g stop c).event.toList ++ (run g stop fuel c').1, (run g stop fuel c').2) := by
  simp only [run, h]

/-- The faults that a run met. -/
def faultsOf (r : List ParseEvent × Option Tree) : List SyntaxFault :=
  r.1.filterMap ParseEvent.fault?

/-! ## What a step looks at -/

/-- The states on the stack and the tokens that are left. -/
def shape (c : Configuration) : List Nat × List Token := (c.stack.map Frame.state, c.rest)

theorem top_of_states {s s' : List Frame} (h : s.map Frame.state = s'.map Frame.state) :
    top s = top s' := by
  cases s <;> cases s' <;> simp_all [top]

theorem map_drop_of_states {s s' : List Frame} (h : s.map Frame.state = s'.map Frame.state)
    (n : Nat) : (s.drop n).map Frame.state = (s'.drop n).map Frame.state := by
  rw [List.map_drop, List.map_drop, h]

/-- **A step looks at nothing but the states and the tokens.** -/
theorem exists_go_of_shape (hshape : shape c = shape d)
    (hgo : (step g stop c).outcome = .go c') :
    ∃ d', (step g stop d).outcome = .go d' ∧ shape c' = shape d' := by
  obtain ⟨s, rest⟩ := c
  obtain ⟨s', rest'⟩ := d
  obtain ⟨hstates, rfl⟩ := Prod.mk.inj hshape
  have htop := top_of_states hstates
  unfold step at hgo ⊢
  simp only [← htop]
  cases haction : g.table.action (top s) (lookahead rest) with
  | none =>
    simp only [haction, recovery] at hgo ⊢
    split at hgo
    · cases hgo
    · exact ⟨_, rfl, by rw [← Outcome.go.inj hgo]⟩
  | some a =>
    cases a with
    | accept => simp [haction] at hgo
    | shift n =>
      simp only [haction, shift] at hgo ⊢
      cases rest with
      | nil => cases hgo
      | cons t ts => exact ⟨_, rfl, by rw [← Outcome.go.inj hgo]; simp [shape, hstates]⟩
    | reduce n =>
      simp only [haction, reduce] at hgo ⊢
      cases hp : g.production? n with
      | none => simp [hp] at hgo
      | some p =>
        have hdrop := map_drop_of_states hstates p.body.length
        simp only [hp, ← top_of_states hdrop] at hgo ⊢
        split at hgo
        · cases hgo
        · exact ⟨_, rfl, by rw [← Outcome.go.inj hgo]; simp only [shape, List.map_cons, hdrop]⟩

/-- **How many steps there are** depends on the states and the tokens alone. -/
theorem HaltsIn.unique {m n : Nat} (hm : HaltsIn g stop m c) (hn : HaltsIn g stop n d)
    (hshape : shape c = shape d) : m = n := by
  induction hm generalizing n d with
  | stop h =>
    cases hn with
    | stop => rfl
    | go h' =>
      obtain ⟨c', hgo, _⟩ := exists_go_of_shape hshape.symm h'
      rw [h] at hgo
      cases hgo
  | go h _ ih =>
    obtain ⟨d', hgo, hshape'⟩ := exists_go_of_shape hshape h
    cases hn with
    | stop h' =>
      rw [h'] at hgo
      cases hgo
    | go h' hn =>
      obtain rfl := Outcome.go.inj (h'.symm.trans hgo)
      rw [ih hn hshape']

/-! ## Weights -/

/-- Twice the tokens that are left and once the trees on the stack. -/
def weight (c : Configuration) : Nat := 2 * c.rest.length + c.stack.length

/-- The tree on top of the stack gets a new root, with the key `a`, and nothing else changes. -/
inductive Raised (ps : List Production) (c : Configuration) (a : String) : Configuration → Prop
  | intro {f : Frame} {below : List Frame} {set : Grammar.ItemSet} {n m : Nat} {p : Production}
      {t : Tree} (hstack : c.stack = f :: below) (hset : stateAt? ps f.state = some set)
      (hp : numbered? ps n = some p) (hbody : p.body = [f.tree.symbol]) (hi : ⟨n, 1⟩ ∈ set)
      (hfollow : (p.key, lookahead c.rest) ∈ followPairs ps) (hkey : p.key = a)
      (hl : Leads ps (top below) (.nonterminal a) m) (ht : t.symbol = .nonterminal a) :
      Raised ps c a ⟨⟨m, t⟩ :: below, c.rest⟩

theorem Raised.mem_nonterminals {ps : List Production} {a : String} (h : Raised ps c a c') :
    a ∈ nonterminals ps := by
  cases h with
  | intro _ _ hp _ _ _ hkey =>
    exact Grammar.mem_nonterminals.mpr ⟨_, Grammar.mem_of_numbered hp, hkey⟩

theorem Raised.weight_eq {ps : List Production} {a : String} (h : Raised ps c a c') :
    weight c' = weight c := by
  cases h with
  | intro hstack => simp [weight, hstack]

theorem length_recover_lt {g : Grammar} {rest : List Token} (h : recover g rest ≠ []) :
    (recover g rest).length < rest.length := by
  cases rest with
  | nil => exact absurd rfl h
  | cons t ts => exact Nat.lt_succ_of_le (List.dropWhile_sublist _).length_le

/-- **A step makes the configuration lighter, or the tree on top gets a new root.** -/
theorem lighter_or_raised (hg : g.IsBuilt) (h : Spells g.productions c.stack)
    (hgo : (step g stop c).outcome = .go c') :
    weight c' < weight c ∨ ∃ a, Raised g.productions c a c' := by
  generalize hs : step g stop c = s at hgo
  have heffect := hs ▸ effect_step hg h stop
  cases heffect with
  | shift hrest hl =>
    obtain rfl := Outcome.go.inj hgo
    refine Or.inl ?_
    simp only [weight, hrest, List.length_cons]
    omega
  | @reduce n m set p _ hset hp hi hfollow hl =>
    obtain rfl := Outcome.go.inj hgo
    obtain ⟨_, hlen, _⟩ := unwind _ h hset hi
    have hsymbols := symbols_of_complete h hset hp hi
    cases hothers : p.others with
    | nil =>
      have hbody : p.body = [p.first] := by rw [Production.body, hothers]
      rw [hbody] at hi hl hlen hsymbols ⊢
      obtain ⟨f, below, hstack⟩ := List.exists_cons_of_length_pos hlen
      rw [hstack] at hset hl hsymbols ⊢
      have hfirst : p.first = f.tree.symbol := (List.cons.inj hsymbols).1.symm
      exact Or.inr ⟨p.key, .intro hstack hset hp (hfirst ▸ hbody) hi hfollow rfl hl rfl⟩
    | cons x xs =>
      refine Or.inl ?_
      have htwo : 2 ≤ p.body.length := by simp [Production.body, hothers]
      simp only [weight, List.length_cons, List.length_drop]
      omega
  | accept => cases hgo
  | fault =>
    simp only [recovery] at hgo
    split at hgo
    · cases hgo
    · rename_i hne
      obtain rfl := Outcome.go.inj hgo
      have hlt := length_recover_lt hne
      exact Or.inl (by simp only [weight, List.length_nil]; omega)

/-! ## The bound -/

/-- The tree on top of `below` has had the key `a` for its root, at least `n` steps before the
end. -/
def HadRoot (g : Grammar) (stop n : Nat) (below : List Frame) (rest : List Token) (a : String) :
    Prop :=
  ∃ m t j, Leads g.productions (top below) (.nonterminal a) m ∧
    HaltsIn g stop j ⟨⟨m, t⟩ :: below, rest⟩ ∧ n ≤ j

/-- A tree gets no root that it has had. -/
theorem not_hadRoot {n : Nat} {a : String} (h : Raised g.productions c a c')
    (hn : HaltsIn g stop n c') : ¬ HadRoot g stop (n + 1) c.stack.tail c.rest a := by
  rintro ⟨m, t, j, hl, hj, hle⟩
  cases h with
  | @intro f below _ _ m' _ t' hstack _ _ _ _ _ _ hl' _ =>
    rw [hstack, List.tail_cons] at hl hj
    obtain rfl := Grammar.leads_unique hl hl'
    have hshape : shape ⟨⟨m, t⟩ :: below, c.rest⟩ = shape ⟨⟨m, t'⟩ :: below, c.rest⟩ := rfl
    have := hj.unique hn hshape
    omega

/-- **The steps are bounded** by the weight and the keys, of which those that the tree on top has
had for its root do not count any more. -/
theorem HaltsIn.add_length_le (hg : g.IsBuilt) {n : Nat} (h : HaltsIn g stop n c)
    (hspells : Spells g.productions c.stack) : ∀ had : List String, had.Nodup →
      had ⊆ nonterminals g.productions → (∀ a ∈ had, HadRoot g stop n c.stack.tail c.rest a) →
      n + had.length ≤ (weight c + 1) * ((nonterminals g.productions).length + 1) := by
  induction h with
  | stop _ =>
    intro had hnodup hsub _
    have hlen := (List.subperm_of_subset hnodup hsub).length_le
    rw [Nat.add_mul]
    omega
  | @go n c c' hgo hn ih =>
    intro had hnodup hsub hhad
    have hlen := (List.subperm_of_subset hnodup hsub).length_le
    have ih := ih (spells_of_go hg hspells hgo)
    rcases lighter_or_raised hg hspells hgo with hlt | ⟨a, hraised⟩
    · have hbound := ih [] List.nodup_nil (List.nil_subset _) (by simp)
      have hmul : (weight c' + 1) * ((nonterminals g.productions).length + 1) ≤
          weight c * ((nonterminals g.productions).length + 1) := Nat.mul_le_mul_right _ hlt
      rw [Nat.add_mul (weight c)]
      simp only [List.length_nil, Nat.add_zero] at hbound
      omega
    · have hnot : a ∉ had := fun ha => not_hadRoot hraised hn (hhad a ha)
      rw [← hraised.weight_eq]
      have hbound := ih (a :: had) (List.nodup_cons.mpr ⟨hnot, hnodup⟩)
        (List.cons_subset.mpr ⟨hraised.mem_nonterminals, hsub⟩) ?_
      · rw [List.length_cons] at hbound
        omega
      · cases hraised with
        | @intro f below _ _ m _ t hstack _ _ _ _ _ _ hl _ =>
          refine List.forall_mem_cons.mpr ⟨⟨m, t, n, hl, hn, Nat.le_refl _⟩, fun b hb => ?_⟩
          obtain ⟨m', t', j, hl', hj, hle⟩ := hhad b hb
          rw [hstack] at hl' hj
          exact ⟨m', t', j, hl', hj, Nat.le_of_succ_le hle⟩

/-- **A parser that comes to an end** does so within its fuel. -/
theorem HaltsIn.le_fuelFor (hg : g.IsBuilt) {n : Nat} {tokens : List Token}
    (h : HaltsIn g stop n ⟨[], tokens⟩) : n ≤ fuelFor g tokens := by
  have hbound := h.add_length_le hg .nil [] List.nodup_nil (List.nil_subset _) (by simp)
  have hkeys := @Derivation.length_nonterminals_le g.productions
  calc n ≤ (2 * tokens.length + 1) * ((nonterminals g.productions).length + 1) := by
        simpa [weight] using hbound
    _ ≤ (2 * tokens.length + 2) * (g.productions.length + 2) :=
        Nat.mul_le_mul (by omega) (by omega)

/-- **A parser that comes to an end** gives a tree or met a fault. -/
theorem HaltsIn.tree_or_fault (hg : g.IsBuilt) {n : Nat} (h : HaltsIn g stop n c)
    (hs : Spells g.productions c.stack) : ∀ fuel, n ≤ fuel →
      (run g stop fuel c).2.isSome ∨ faultsOf (run g stop fuel c) ≠ [] := by
  induction h with
  | @stop c tree hstop =>
    intro fuel hfuel
    obtain ⟨fuel, rfl⟩ := Nat.exists_eq_add_of_le' hfuel
    rw [run_of_stop hstop]
    have heffect := effect_step hg hs stop
    generalize step g stop c = s at heffect hstop
    cases heffect with
    | shift => cases hstop
    | reduce => cases hstop
    | accept =>
      obtain rfl := Outcome.stop.inj hstop
      exact Or.inl rfl
    | fault => exact Or.inr (List.cons_ne_nil _ _)
  | @go n c c' hgo _ ih =>
    intro fuel hfuel
    obtain ⟨fuel, rfl⟩ := Nat.exists_eq_add_of_le' (Nat.le_trans (Nat.le_add_left 1 n) hfuel)
    rw [run_of_go hgo]
    refine (ih (spells_of_go hg hs hgo) fuel (Nat.le_of_succ_le_succ hfuel)).imp_right fun hne => ?_
    rw [faultsOf, List.filterMap_append]
    exact List.append_ne_nil_of_right_ne_nil _ hne

end Parser

namespace Grammar

variable {g : Grammar} {tokens : List Token}

theorem errors_parse (hne : tokens ≠ []) : (g.parse tokens).errors =
    Parser.faultsOf
      (Parser.run g (Parser.stopOf tokens) (Parser.fuelFor g tokens) ⟨[], tokens⟩) := by
  rw [parse, Parser.trace, if_neg (by simpa using hne)]
  rfl

/-- **Tokens are not passed over in silence**: there is a tree or an error. -/
theorem tree_or_error (hg : g.IsBuilt) (h : Parser.Halts g tokens) (hne : tokens ≠ []) :
    (g.parse tokens).result.isSome ∨ (g.parse tokens).errors ≠ [] := by
  obtain ⟨n, hn⟩ := h hne
  by_cases herrors : (g.parse tokens).errors = []
  · refine Or.inl
      ((Findings.finish_result_isSome_iff _ (Parser.trace g tokens).2).mpr ⟨herrors, ?_⟩)
    rw [errors_parse hne] at herrors
    rw [Parser.trace, if_neg (by simpa using hne)]
    exact (hn.tree_or_fault hg .nil _ (hn.le_fuelFor hg)).resolve_right fun h => h herrors
  · exact Or.inr herrors

end Grammar

end PixQuery
