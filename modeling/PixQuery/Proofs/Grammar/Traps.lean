import PixQuery.Proofs.Grammar.Halting

/-!
# A trap is never left

Tokens lead to the state of a trap and are read there as its key, and then the parser goes round the
circle before what is left. Every terminal that stands before a symbol on this way can stand behind
the symbol before it, so each derivation on the way is pushed. Round the circle nothing is read and
the state below stays, so after each round there can be another.

Results:
* `follow_of_awaits`: what is waited for behind a nonterminal begins with what can stand behind it.
* `exists_leadTo`: some tokens lead to a reachable state.
* `exists_endless`: where there is a trap some tokens have endless moves.
* `reachesStop_iff`: with a grammar that was read from a text the parser stops on all tokens exactly
  when the grammar has no trap.
* `not_reachesStop_ring`: a grammar without conflicts that has a trap.
-/

namespace PixQuery

open Grammar (Leads stateAt? numbered? followPairs firstPairs firstOf Production ItemSet WellDefined
  Sym)
open PixQuery.Parser (Reachable Rises IsTrap)
open Relation (TransGen)

/-! ## What can stand behind a symbol -/

namespace Grammar

variable {ps : List Production}

/-- Something that is waited for in a state can begin with the terminal. -/
def Awaits (ps : List Production) (k : Nat) (t : String) : Prop :=
  ∃ set, stateAt? ps k = some set ∧
    ∃ i ∈ set, ∃ x, i.next? ps = some x ∧ t ∈ firstOf (firstPairs ps) x

/-- What begins the symbol behind a dot that has a nonterminal before it stands behind this. -/
theorem follow_of_begun (hps : WellDefined ps) {set : ItemSet} {j : Item} {a t : String} {x : Sym}
    (hj : j ∈ advance ps set (.nonterminal a)) (hor : j.dot ≠ 0 ∨ j.production = 0)
    (hnext : j.next? ps = some x) (ht : t ∈ firstOf (firstPairs ps) x) :
    (a, t) ∈ followPairs ps := by
  obtain ⟨n, d⟩ := j
  cases d with
  | zero =>
    obtain rfl : n = 0 := hor.resolve_left fun h => h rfl
    exact absurd hj (zero_not_mem_advance _ _)
  | succ d =>
    obtain ⟨_, hbefore⟩ := mem_advance_iff.mp hj
    have hn : n ≠ 0 := by
      rintro rfl
      have hlt : d + 1 < 1 := dot_lt_of_next hnext
      omega
    obtain ⟨p, hp⟩ := exists_numbered hn (production_le_of_next hnext)
    rw [Parser.next_eq_getElem? hp] at hbefore hnext
    obtain ⟨hlt, hx⟩ := List.getElem?_eq_some_iff.mp hnext
    have hbody := body_eq_of_getElem? hbefore
    rw [List.drop_eq_getElem_cons hlt, hx] at hbody
    exact follow_next hps (mem_of_numbered hp) hbody ht

/-- **What is waited for behind a nonterminal** begins with what can stand behind it. -/
theorem follow_of_awaits (hps : WellDefined ps) {k m : Nat} {a t : String}
    (hl : Leads ps k (.nonterminal a) m) (h : Awaits ps m t) : (a, t) ∈ followPairs ps := by
  obtain ⟨set, hset⟩ := exists_stateAt_of_leads hl
  have hset' := stateAt_of_leads hset hl
  obtain ⟨_, heq, i, hi, x, hnext, ht⟩ := h
  obtain rfl := Option.some.inj (hset'.symm.trans heq)
  by_cases hor : i.dot ≠ 0 ∨ i.production = 0
  · exact follow_of_begun hps hi hor hnext ht
  · obtain ⟨n, d⟩ := i
    obtain ⟨rfl, hn⟩ : d = 0 ∧ n ≠ 0 := by simpa using hor
    obtain ⟨p, hp⟩ := exists_numbered hn (production_le_of_next hnext)
    -- from the item whose production was begun down to this one, each symbol begins the last
    have hkey := (undotted_induction (P := fun b => ∀ u, (b, u) ∈ firstPairs ps →
      (a, u) ∈ followPairs ps) hset'
      (fun j hj hor b hb u hu => follow_of_begun hps hj hor hb (mem_image.mpr hu))
      (fun _ q b hq _ ih hfirst u hu =>
        ih u (first_closed (mem_of_numbered hq) (hfirst ▸ mem_image.mpr hu))) hp hi).1
    have hfirst : some p.first = some x := (next_undotted hp).symm.trans hnext
    obtain rfl := Option.some.inj hfirst
    exact hkey t (first_closed (mem_of_numbered hp) ht)

end Grammar

namespace Bare

variable {g : Grammar}

/-! ## The way into a trap -/

/-- The tokens lead to the stack before all that is waited for on it. -/
def LeadTo (g : Grammar) (tokens : List Token) (stack : List Entry) : Prop :=
  ∀ us, Grammar.Awaits g.productions (top stack) (ahead us) →
    ∃ n, Moves g n ⟨[], tokens.map Token.terminal ++ us⟩ ⟨stack, us⟩

/-- The tokens of one more tree lead to its root, before what can stand behind this. -/
theorem LeadTo.exists_moves (hg : g.IsBuilt) {tokens : List Token} {stack : List Entry}
    (h : LeadTo g tokens stack) {t : Tree} (ht : t.IsDerivation g.productions) {n : Nat}
    (hl : Leads g.productions (top stack) t.symbol n) {us : List String}
    (hfollow : ∀ a, t.symbol = .nonterminal a → (a, ahead us) ∈ followPairs g.productions) :
    ∃ m, Moves g m ⟨[], (tokens ++ t.tokens).map Token.terminal ++ us⟩
      ⟨⟨n, t.derivation⟩ :: stack, us⟩ := by
  have hvalid := Tree.isValid_derivation ht
  have hsymbol := Tree.symbol_derivation ht
  obtain ⟨set, hset, i, hi, hnext⟩ := Grammar.exists_next_of_leads hl
  rw [← hsymbol] at hl hnext hfollow
  obtain ⟨m, hm⟩ := h (t.derivation.leaves ++ us)
    ⟨set, hset, i, hi, _, hnext, Derivation.ahead_of_first hvalid us⟩
  obtain ⟨q, hq, hpush⟩ := Derivation.moves_push hg.wellDefined rfl hg.built t.derivation stack us
    hvalid hset hi hnext hfollow
  obtain rfl := Grammar.leads_unique hq hl
  rw [List.map_append, List.append_assoc, ← Tree.leaves_derivation]
  exact ⟨_, hm.trans hpush⟩

/-- **Some tokens lead to a reachable state.** -/
theorem exists_leadTo (hg : g.IsBuilt) {k : Nat} (h : Reachable g.productions k) :
    ∃ tokens stack, LeadTo g tokens stack ∧ top stack = k := by
  induction h with
  | start => exact ⟨[], [], fun us _ => ⟨0, .refl _⟩, rfl⟩
  | @leads k n x _ hx hl ih =>
    obtain ⟨tokens, stack, hlead, rfl⟩ := ih
    obtain ⟨t, ht, rfl⟩ := hx
    exact ⟨tokens ++ t.tokens, ⟨n, t.derivation⟩ :: stack, fun us hus =>
      hlead.exists_moves hg ht hl fun a ha =>
        Grammar.follow_of_awaits hg.wellDefined (ha ▸ hl) hus, rfl⟩

/-! ## Round the circle -/

variable {stack : List Entry} {rest : List String} {set : ItemSet} {a b : String}

/-- The entry on top of the stack may get a new root. -/
theorem exists_next_of_rises (hg : g.IsBuilt)
    (hset : stateAt? g.productions (top stack) = some set) (h : Rises g.productions set a b)
    (hfollow : (b, ahead rest) ∈ followPairs g.productions) {e : Entry}
    (hl : Leads g.productions (top stack) (.nonterminal a) e.state) :
    ∃ e', Leads g.productions (top stack) (.nonterminal b) e'.state ∧
      next? g ⟨e :: stack, rest⟩ = some ⟨e' :: stack, rest⟩ := by
  obtain ⟨n, p, hp, rfl, hbody, hi, -, hmem⟩ := h.exists_production
  obtain ⟨i, hiwaits, hwaits⟩ := Grammar.exists_waiting hset hp hi
  obtain ⟨q, hq⟩ := Grammar.exists_leads hset hiwaits hwaits
  have hlen : [e].length = p.body.length := by rw [hbody]; rfl
  exact ⟨⟨q, _⟩, hq, Derivation.next_reduce hg.wellDefined rfl hg.built hp hlen
    (Grammar.stateAt_of_leads hset hl) hmem hfollow hq⟩

/-- From each root there is a way to those above it, of one move at least. -/
theorem exists_moves_of_rises (hg : g.IsBuilt)
    (hset : stateAt? g.productions (top stack) = some set)
    (h : TransGen (Rises g.productions set) a b)
    (hfollow : (b, ahead rest) ∈ followPairs g.productions) {e : Entry}
    (hl : Leads g.productions (top stack) (.nonterminal a) e.state) :
    ∃ n e', Leads g.productions (top stack) (.nonterminal b) e'.state ∧
      Moves g (n + 1) ⟨e :: stack, rest⟩ ⟨e' :: stack, rest⟩ := by
  induction h with
  | single h =>
    obtain ⟨e', hl', hnext⟩ := exists_next_of_rises hg hset h hfollow hl
    exact ⟨0, e', hl', .single hnext⟩
  | @tail b c _ h ih =>
    have hbelow := Parser.follow_of_rises hg.wellDefined (.single h) hfollow
    obtain ⟨n, e', hl', hmoves⟩ := ih hbelow
    obtain ⟨e'', hl'', hnext⟩ := exists_next_of_rises hg hset h hfollow hl'
    exact ⟨n + 1, e'', hl'', hmoves.trans (.single hnext)⟩

/-- **There are as many moves round a circle** as one likes. -/
theorem exists_moves_round (hg : g.IsBuilt)
    (hset : stateAt? g.productions (top stack) = some set)
    (h : TransGen (Rises g.productions set) a a)
    (hfollow : (a, ahead rest) ∈ followPairs g.productions) : ∀ (n : Nat) {e : Entry},
      Leads g.productions (top stack) (.nonterminal a) e.state →
      ∃ m ≥ n, ∃ d, Moves g m ⟨e :: stack, rest⟩ d
  | 0, e, _ => ⟨0, Nat.le_refl 0, _, .refl _⟩
  | n + 1, e, hl => by
    obtain ⟨k, e', hl', hround⟩ := exists_moves_of_rises hg hset h hfollow hl
    obtain ⟨m, hm, d, hmoves⟩ := exists_moves_round hg hset h hfollow n hl'
    exact ⟨k + 1 + m, by omega, d, hround.trans hmoves⟩

/-- From some tokens there are as many moves as one likes. -/
def Endless (g : Grammar) (tokens : List Token) : Prop :=
  ∀ n, ∃ m ≥ n, ∃ d, Moves g m ⟨[], tokens.map Token.terminal⟩ d

/-- **A tree before a circle is never left**: its tokens, behind some that lead to the state below
it, give endless moves before what can stand behind its root. -/
theorem LeadTo.endless (hg : g.IsBuilt) {tokens rest : List Token} (h : LeadTo g tokens stack)
    {t : Tree} (ht : t.IsDerivation g.productions) (hsymbol : t.symbol = .nonterminal a)
    (hset : stateAt? g.productions (top stack) = some set)
    (hcircle : TransGen (Rises g.productions set) a a)
    (hfollow : (a, Parser.lookahead rest) ∈ followPairs g.productions) :
    Endless g (tokens ++ t.tokens ++ rest) := by
  rw [← ahead_terminal] at hfollow
  -- the circle begins with a production that waits for the key
  obtain ⟨b, hrises, _⟩ := TransGen.head'_iff.mp hcircle
  obtain ⟨n, -, -, -, -, hi, hnext, -⟩ := hrises.exists_production
  obtain ⟨q, hl⟩ := Grammar.exists_leads hset hi hnext
  obtain ⟨m, hway⟩ := h.exists_moves hg ht (hsymbol ▸ hl) fun a' ha' =>
    Sym.nonterminal.inj (hsymbol.symm.trans ha') ▸ hfollow
  intro n
  obtain ⟨k, hk, d, hround⟩ := exists_moves_round hg hset hcircle hfollow n
    (e := ⟨q, t.derivation⟩) hl
  rw [List.map_append]
  exact ⟨m + k, by omega, d, hway.trans hround⟩

/-- **There are tokens that lead round a trap** for ever. -/
theorem exists_endless (hg : g.IsBuilt) {k : Nat} {rest : List Token}
    (h : IsTrap g.productions k a rest) : ∃ tokens, tokens ≠ [] ∧ Endless g tokens := by
  obtain ⟨tokens, stack, hlead, rfl⟩ := exists_leadTo hg h.reachable
  obtain ⟨set, hset, hcircle⟩ := h.circle
  obtain ⟨t, ht, hsymbol⟩ := h.readable
  refine ⟨_, fun hnil => ?_, hlead.endless hg ht hsymbol hset hcircle h.follow⟩
  obtain ⟨u, us, hleaves, _⟩ := Derivation.exists_first (Tree.isValid_derivation ht)
  simp only [List.append_eq_nil_iff] at hnil
  rw [Tree.leaves_derivation, hnil.1.2] at hleaves
  cases hleaves

end Bare

namespace Parser

variable {g : Grammar} {stop : Nat} {c : Configuration} {tokens : List Token}

/-! ## How parsing stops -/

/-- The step that is made here is the last: the tree is accepted, or an error is met at the end of
the tokens, or an error behind which no token can begin anew. -/
inductive Stops (g : Grammar) (c : Configuration) : Prop
  | accept (haction : g.table.action (top c.stack) (lookahead c.rest) = some .accept)
  | atEnd (haction : g.table.action (top c.stack) (lookahead c.rest) = none) (hrest : c.rest = [])
  | spent (haction : g.table.action (top c.stack) (lookahead c.rest) = none) (hrest : c.rest ≠ [])
      (hrecover : recover g c.rest = [])

/-- The parser comes to a configuration in which it stops. -/
def ReachesStop (g : Grammar) (tokens : List Token) : Prop :=
  ∃ c, Reached g (stopOf tokens) tokens c ∧ Stops g c

theorem Stops.exists_stop (h : Stops g c) : ∃ tree, (step g stop c).outcome = .stop tree := by
  have hspent : g.table.action (top c.stack) (lookahead c.rest) = none → recover g c.rest = [] →
      ∃ tree, (step g stop c).outcome = .stop tree := fun haction hrecover =>
    ⟨none, by simp only [step, haction, recovery, hrecover]⟩
  cases h with
  | accept haction => exact ⟨accepted c.stack, by simp only [step, haction]⟩
  | atEnd haction hrest => exact hspent haction (by rw [hrest]; rfl)
  | spent haction _ hrecover => exact hspent haction hrecover

/-- A step that stops the parser does so in one of three ways. -/
theorem stops_of_stop (hg : g.IsBuilt) (hs : Spells g.productions c.stack) {tree : Option Tree}
    (hstop : (step g stop c).outcome = .stop tree) : Stops g c := by
  have hcarries := carriesOut_of_spells hg hs
  cases haction : g.table.action (top c.stack) (lookahead c.rest) with
  | none =>
    have hrecover : recover g c.rest = [] := by
      simp only [step, haction, recovery] at hstop
      split at hstop
      · assumption
      · cases hstop
    by_cases hrest : c.rest = []
    · exact .atEnd haction hrest
    · exact .spent haction hrest hrecover
  | some a =>
    cases a with
    | accept => exact .accept haction
    | shift n =>
      have hrest := hcarries.shift n haction
      simp only [step, haction, shift] at hstop
      split at hstop
      · contradiction
      · cases hstop
    | reduce n =>
      obtain ⟨p, hp, _, m, hm⟩ := hcarries.reduce n haction
      simp only [step, haction, reduce, hp, hm] at hstop
      cases hstop

theorem HaltsIn.exists_stops (hg : g.IsBuilt) {n : Nat} (h : HaltsIn g stop n c)
    (hc : Reached g stop tokens c) : ∃ d, Reached g stop tokens d ∧ Stops g d := by
  induction h with
  | stop hstop => exact ⟨_, hc, stops_of_stop hg (hc.spells hg) hstop⟩
  | go hgo _ ih => exact ih (.step hc hgo)

theorem Reached.exists_haltsIn (h : Reached g stop tokens c) {n : Nat} (hn : HaltsIn g stop n c) :
    ∃ m, HaltsIn g stop m ⟨[], tokens⟩ := by
  induction h generalizing n with
  | start => exact ⟨n, hn⟩
  | step _ hgo ih => exact ih (.go hgo hn)

/-- **The parser comes to an end** on tokens when it comes to a configuration in which it stops. -/
theorem exists_haltsIn_iff (hg : g.IsBuilt) :
    (∃ n, HaltsIn g (stopOf tokens) n ⟨[], tokens⟩) ↔ ReachesStop g tokens :=
  ⟨fun ⟨_, hn⟩ => hn.exists_stops hg .start, fun ⟨_, hc, hstops⟩ =>
    let ⟨_, hstop⟩ := hstops.exists_stop
    hc.exists_haltsIn (.stop hstop)⟩

/-- A parser that comes to an end makes more steps than there are moves. -/
theorem HaltsIn.lt_of_moves {m : Nat} {b d : Bare} (hmoves : Bare.Moves g m b d) :
    ∀ {n : Nat} {c : Configuration}, Bare.ofConfiguration c = b → HaltsIn g stop n c → m < n := by
  induction hmoves with
  | refl b =>
    intro n c _ h
    cases h with
    | stop => exact Nat.zero_lt_one
    | go => exact Nat.zero_lt_succ _
  | step hnext _ ih =>
    intro n c hc h
    obtain ⟨event, c', hstep, _, hc'⟩ := Bare.step_of_next stop (hc ▸ hnext)
    cases h with
    | stop hstop =>
      rw [hstep] at hstop
      cases hstop
    | go hgo hn =>
      rw [hstep] at hgo
      obtain rfl := Outcome.go.inj hgo
      exact Nat.succ_lt_succ (ih hc' hn)

/-- On tokens with endless moves the parser does not stop. -/
theorem not_reachesStop_of_endless (hg : g.IsBuilt) (h : Bare.Endless g tokens) :
    ¬ ReachesStop g tokens := by
  intro hstop
  obtain ⟨n, hn⟩ := (exists_haltsIn_iff hg).mpr hstop
  obtain ⟨m, hm, d, hmoves⟩ := h n
  have hlt := HaltsIn.lt_of_moves hmoves rfl hn
  omega

/-- **The parser stops on all tokens** of a grammar that was read from a text exactly when the
grammar has no trap. -/
theorem reachesStop_iff {text : String} (h : Grammar.ofText text = .ok g) :
    (∀ tokens, tokens ≠ [] → ReachesStop g tokens) ↔
      ∀ k a rest, ¬ IsTrap g.productions k a rest := by
  have hg := Grammar.isBuilt_of_ofText h
  constructor
  · intro hstops k a rest htrap
    obtain ⟨tokens, hne, hendless⟩ := Bare.exists_endless hg htrap
    exact not_reachesStop_of_endless hg hendless (hstops tokens hne)
  · intro htrap tokens _
    exact (exists_haltsIn_iff hg).mp (exists_haltsIn hg htrap ⟨tokens, consistent_start tokens⟩)

/-- Sums stop. -/
theorem reachesStop_sums : Grammar.ofText Grammar.sumText = .ok Grammar.sums ∧
    ∀ tokens, tokens ≠ [] → ReachesStop Grammar.sums tokens :=
  ⟨Grammar.ofText_sumText, (reachesStop_iff Grammar.ofText_sumText).mpr
    (not_isTrap_of_productive (Grammar.isBuilt_of_ofText Grammar.ofText_sumText)
      Grammar.productive_sums)⟩

/-! ## A ring -/

/-- Two keys that go round in a circle, before one that stands for nothing. -/
def ringText : String := "S -> A N\nA -> B\nB -> A\nB -> str\nN -> N &\nZ -> B ,"

/-- The grammar of the ring. -/
def ring : Grammar := (Grammar.ofText ringText).toOption.getD default

theorem ofText_ringText : Grammar.ofText ringText = .ok ring :=
  Grammar.ofText_eq_ok (by decide +kernel)

/-- Its productions. -/
def ringProductions : List Production :=
  [⟨"S", .nonterminal "A", [.nonterminal "N"]⟩, ⟨"A", .nonterminal "B", []⟩,
    ⟨"B", .nonterminal "A", []⟩, ⟨"B", .terminal "str", []⟩,
    ⟨"N", .nonterminal "N", [.terminal "&"]⟩, ⟨"Z", .nonterminal "B", [.terminal ","]⟩]

theorem productions_ring : ring.productions = ringProductions :=
  Grammar.productions_of_ofText rfl ofText_ringText

/-- `a,` -/
def ringTokens : List Token := [⟨.string "a" .word, .between 0 1⟩, ⟨.symbol .comma, .between 1 2⟩]

/-- The tree of `a` with the root `B`. -/
def ringTree : Tree :=
  .node 4 "B" [.leaf ⟨.string "a" .word, .between 0 1⟩] (.between 0 1)

theorem circle_ring :
    TransGen (Rises ringProductions (Grammar.startSet ringProductions)) "B" "B" :=
  .head ⟨2, _, rfl, rfl, rfl, by decide⟩ (.single ⟨3, _, rfl, rfl, rfl, by decide⟩)

/-- **The ring is never left**: the grammar has no conflict, and the parser does not stop. -/
theorem not_reachesStop_ring :
    ∃ g, Grammar.ofText ringText = .ok g ∧ ringTokens ≠ [] ∧ ¬ ReachesStop g ringTokens := by
  have hg := Grammar.isBuilt_of_ofText ofText_ringText
  have hlead : Bare.LeadTo ring [] [] := fun us _ => ⟨0, .refl _⟩
  have hendless : Bare.Endless ring ([] ++ ringTree.tokens ++ [⟨.symbol .comma, .between 1 2⟩]) :=
    hlead.endless hg (by rw [productions_ring]; decide) rfl Grammar.stateAt_zero
      (by rw [productions_ring]; exact circle_ring) (by rw [productions_ring]; decide)
  exact ⟨ring, ofText_ringText, by decide, not_reachesStop_of_endless hg hendless⟩

end Parser

end PixQuery
