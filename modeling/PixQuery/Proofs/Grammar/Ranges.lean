import PixQuery.Proofs.Token.Ranges

/-!
# Where nodes and faults of a parse stand

A parser stops before a token, or behind the last one, and what it reports there has that place. The
nodes of a tree over tokens in the order of a text are nested: the ranges of the children of a node
lie inside its own, one behind the other.

Results:
* `range_of_mem_errors`: a fault of a parse stands at a token or behind the last.
* `Tree.nested_of_located`: ranges are nested as the nodes are.
-/

namespace PixQuery

/-! ## Faults -/

namespace Parser

variable {g : Grammar} {stop : Nat} {c next : Configuration}

/-- A fault is found before the tokens that are left. -/
theorem faultAt_of_step {f : SyntaxFault} (h : (step g stop c).event = some (.fault state f)) :
    ∃ state, f = faultAt g stop state c.rest := by
  unfold step at h
  simp only at h
  split at h
  · unfold shift at h
    split at h <;> cases h
  · unfold reduce at h
    split at h
    · cases h
    · simp only at h
      split at h
      · cases h
        exact ⟨_, rfl⟩
      · cases h
  · cases h
  · cases h
    exact ⟨_, rfl⟩

theorem recover_suffix : ∀ tokens : List Token, recover g tokens <:+ tokens
  | [] => List.suffix_rfl
  | _ :: _ => (List.dropWhile_suffix _).trans (List.suffix_cons _ _)

/-- A step brings no tokens back. -/
theorem rest_suffix_of_step (h : (step g stop c).outcome = .go next) : next.rest <:+ c.rest := by
  unfold step at h
  simp only at h
  split at h
  · unfold shift at h
    split at h
    · cases h
    · rename_i hrest
      cases h
      rw [hrest]
      exact List.suffix_cons _ _
  · unfold reduce at h
    split at h
    · cases h
    · simp only at h
      split at h
      · cases h
      · cases h
        exact List.suffix_rfl
  · cases h
  · unfold recovery at h
    simp only at h
    split at h
    · cases h
    · cases h
      exact recover_suffix c.rest

/-- A fault of a run is found before some of its tokens, or behind them. -/
theorem faultAt_of_run {state : Nat} {f : SyntaxFault} : ∀ {fuel : Nat} {c : Configuration},
    .fault state f ∈ (run g stop fuel c).1 →
      ∃ state rest, rest <:+ c.rest ∧ f = faultAt g stop state rest
  | 0, _, h => by cases h
  | fuel + 1, c, h => by
    have hstep : ∀ {event}, event ∈ (step g stop c).event.toList → event = .fault state f →
        ∃ state rest, rest <:+ c.rest ∧ f = faultAt g stop state rest := by
      rintro event hevent rfl
      obtain ⟨state, hf⟩ := faultAt_of_step (Option.mem_toList.mp hevent)
      exact ⟨state, c.rest, List.suffix_rfl, hf⟩
    simp only [run] at h
    split at h
    · exact hstep h rfl
    · rename_i next hnext
      rcases List.mem_append.mp h with h | h
      · exact hstep h rfl
      · obtain ⟨state, rest, hrest, hf⟩ := faultAt_of_run h
        exact ⟨state, rest, hrest.trans (rest_suffix_of_step hnext), hf⟩

end Parser

/-- **A fault of a parse** stands at a token, or behind the last. -/
theorem range_of_mem_errors {g : Grammar} {tokens : List Token} {f : SyntaxFault}
    (h : f ∈ (g.parse tokens).errors) :
    (∃ t ∈ tokens, f.range = t.range) ∨ f.range = .point (Parser.stopOf tokens) := by
  have hfaults : f ∈ (Parser.trace g tokens).1.filterMap ParseEvent.fault? := h
  obtain ⟨event, hevent, hf⟩ := List.mem_filterMap.mp hfaults
  cases event with
  | shift | reduce | accept => cases hf
  | fault state f' =>
    obtain rfl := Option.some.inj hf
    unfold Parser.trace at hevent
    split at hevent
    · cases hevent
    · obtain ⟨state, rest, hrest, rfl⟩ := Parser.faultAt_of_run hevent
      cases rest with
      | nil => exact .inr rfl
      | cons t ts => exact .inl ⟨t, hrest.subset List.mem_cons_self, rfl⟩

theorem stopOf_le {tokens : List Token} {n : Nat} (h : ∀ t ∈ tokens, t.stop ≤ n) :
    Parser.stopOf tokens ≤ n := by
  unfold Parser.stopOf
  cases hlast : tokens.getLast? with
  | none => exact Nat.zero_le n
  | some t => exact h t (List.mem_of_getLast? hlast)

/-! ## Nodes -/

namespace Tree

mutual

/-- The range of a node holds those of its children, which stand one behind the other. -/
def Nested : Tree → Prop
  | leaf _ => True
  | node _ _ children range =>
    ((∀ child ∈ children, child.range.LiesIn range) ∧
      children.Pairwise fun t u => t.range.stopOrNext ≤ u.range.start) ∧ AllNested children

/-- All of some trees are nested. -/
def AllNested : List Tree → Prop
  | [] => True
  | t :: ts => Nested t ∧ AllNested ts

end

theorem allNested_iff {ts : List Tree} : AllNested ts ↔ ∀ t ∈ ts, Nested t := by
  induction ts with
  | nil => simp [AllNested]
  | cons t ts ih => simp [AllNested, ih]

/-- Tokens that hold characters, in the order of a text. -/
structure Standing (tokens : List Token) : Prop where
  inOrder : InOrder tokens
  holds : ∀ t ∈ tokens, t.range.LiesIn t.range

theorem Standing.left {ts us : List Token} (h : Standing (ts ++ us)) : Standing ts :=
  ⟨h.inOrder.of_append_left, fun t ht => h.holds t (List.mem_append_left us ht)⟩

theorem Standing.right {ts us : List Token} (h : Standing (ts ++ us)) : Standing us :=
  ⟨h.inOrder.of_append_right, fun t ht => h.holds t (List.mem_append_right ts ht)⟩

theorem mem_tokensOf {t : Tree} {tok : Token} : ∀ {ts : List Tree}, t ∈ ts → tok ∈ t.tokens →
    tok ∈ tokensOf ts
  | u :: us, ht, htok => by
    rw [tokensOf]
    rcases List.mem_cons.mp ht with rfl | ht
    · exact List.mem_append_left _ htok
    · exact List.mem_append_right _ (mem_tokensOf ht htok)

/-- A tree holds a character. -/
theorem holds_of_located {t : Tree} (h : t.Located) (hstand : Standing t.tokens) :
    t.range.LiesIn t.range := by
  cases t with
  | leaf t => exact hstand.holds t List.mem_cons_self
  | node n key children range =>
    obtain ⟨first, last, hfirst, hlast, hrange⟩ := (spanned_and_ends h hstand.inOrder).1.1
    have hlastmem := List.mem_of_getLast? hlast
    have hbounds := (hstand.inOrder.bounds hfirst hlast last hlastmem).1
    obtain ⟨a, b, hab, _, hlt, _⟩ := hstand.holds last hlastmem
    refine ⟨_, _, hrange, Nat.le_of_eq (by simp [Tree.range, hrange]), ?_,
      Nat.le_of_eq (by simp [Tree.range, hrange])⟩
    simp only [Token.stop, hab, Span.start_between, Span.stopOrNext_between] at hbounds ⊢
    omega

/-- A tree lies inside whatever holds its tokens. -/
theorem liesIn_of_ends {t : Tree} {outer : Span} (hends : t.Ends) (hholds : t.range.LiesIn t.range)
    (houter : ∀ tok ∈ t.tokens, outer.start ≤ tok.range.start ∧ tok.stop ≤ outer.stopOrNext) :
    t.range.LiesIn outer := by
  obtain ⟨first, last, hfirst, hlast, hstart, hstop⟩ := hends
  have hbegin := (houter first (List.mem_of_head? hfirst)).1
  have hend := (houter last (List.mem_of_getLast? hlast)).2
  obtain ⟨a, b, hab, _, hlt, _⟩ := hholds
  rw [hab] at hstart hstop ⊢
  rw [Span.start_between] at hstart
  rw [Span.stopOrNext_between] at hstop
  exact ⟨a, b, rfl, by omega, hlt, by omega⟩

theorem liesIn_of_located {t : Tree} {outer : Span} (h : t.Located) (hstand : Standing t.tokens)
    (houter : ∀ tok ∈ t.tokens, tok.range.LiesIn outer) : t.range.LiesIn outer :=
  liesIn_of_ends (spanned_and_ends h hstand.inOrder).2 (holds_of_located h hstand) fun tok htok =>
    ⟨(houter tok htok).start_le, (houter tok htok).stop_le⟩

theorem holds_of_allLocated : ∀ {ts : List Tree}, AllLocated ts → Standing (tokensOf ts) →
    ∀ t ∈ ts, t.range.LiesIn t.range
  | t :: ts, h, hstand, u, hu => by
    rcases List.mem_cons.mp hu with rfl | hu
    · exact holds_of_located h.1 hstand.left
    · exact holds_of_allLocated h.2 hstand.right u hu

/-- The children of a node lie inside it. -/
theorem liesIn_of_mem {ts : List Tree} {range : Span} {t : Tree} (hstand : Standing (tokensOf ts))
    (hcovers : Covers range (tokensOf ts)) (hends : t.Ends) (hholds : t.range.LiesIn t.range)
    (ht : t ∈ ts) : t.range.LiesIn range := by
  obtain ⟨first, last, hfirst, hlast, rfl⟩ := hcovers
  exact liesIn_of_ends hends hholds fun tok htok =>
    hstand.inOrder.bounds hfirst hlast tok (mem_tokensOf ht htok)

/-- Trees over tokens in order stand one behind the other. -/
theorem apart_of_ends : ∀ {ts : List Tree}, InOrder (tokensOf ts) → (∀ t ∈ ts, Ends t) →
    ts.Pairwise fun t u => t.range.stopOrNext ≤ u.range.start
  | [], _, _ => .nil
  | t :: ts, horder, hends => by
    have hrest := apart_of_ends horder.of_append_right fun u hu =>
      hends u (List.mem_cons_of_mem t hu)
    refine List.pairwise_cons.mpr ⟨fun u hu => ?_, hrest⟩
    obtain ⟨_, last, _, hlast, _, hstop⟩ := hends t List.mem_cons_self
    obtain ⟨first, _, hfirst, _, hstart, _⟩ := hends u (List.mem_cons_of_mem t hu)
    rw [hstop, hstart]
    exact (List.pairwise_append.mp horder.apart).2.2 last (List.mem_of_getLast? hlast) first
      (mem_tokensOf hu (List.mem_of_head? hfirst))

mutual

/-- **Ranges are nested as the nodes are**, over tokens in the order of a text. -/
theorem nested_of_located : ∀ {t : Tree}, t.Located → Standing t.tokens → t.Nested
  | .leaf _, _, _ => trivial
  | .node n key children range, h, hstand => by
    have hspanned := (spanned_and_ends h hstand.inOrder).1
    have hends := (allSpanned_and_ends h.2 hstand.inOrder).2
    have hall := holds_of_allLocated h.2 hstand
    exact ⟨⟨fun t ht => liesIn_of_mem hstand hspanned.1 (hends t ht) (hall t ht) ht,
      apart_of_ends hstand.inOrder hends⟩, allNested_of_located h.2 hstand⟩

theorem allNested_of_located : ∀ {ts : List Tree}, AllLocated ts → Standing (tokensOf ts) →
    AllNested ts
  | [], _, _ => trivial
  | _ :: _, h, hstand => ⟨nested_of_located h.1 hstand.left, allNested_of_located h.2 hstand.right⟩

end

end Tree

end PixQuery
