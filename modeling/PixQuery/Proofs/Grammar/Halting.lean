import Mathlib.Data.Fintype.Order
import PixQuery.Proofs.Grammar.Termination
import PixQuery.Proofs.Grammar.Viability

/-!
# The parser comes to an end

The only steps that do not make a configuration lighter give the tree on top a new root. They could
go on for ever only if some key were reached again from itself by productions of one symbol. The
follow sets of all keys on such a circle are the same, and some item in the state below waits for
one of them and is not on the circle. Whatever is to be done for that item behind the key competes
with going on round the circle, so the table would have a conflict. This needs that every
nonterminal stands for some terminals: otherwise what the item waits for next may be nothing that
a token can begin. A circle that is left then is a trap when tokens lead to it and some of them, or
the end, may stand behind its keys.

Results:
* `exists_exit`: an item outside waits for a key of the circle.
* `exists_performs_behind`: what is done behind a key for an item that waits for it.
* `not_circle`: a built grammar in which every nonterminal stands for something has no circle of
  productions of one symbol, and so no trap (`not_isTrap_of_productive`).
* `exists_haltsIn`: without a trap the parser comes to an end.
* `halts`: it does so within its fuel when every nonterminal stands for something.
-/

namespace PixQuery

open Grammar (Leads stateAt? numbered? followPairs nonterminals Production ItemSet Item Performs
  WellDefined startKey Sym)
open Relation (TransGen ReflTransGen)

namespace Parser

variable {g : Grammar} {ps : List Production} {set : ItemSet}

/-! ## Circles of productions of one symbol -/

/-- In a state with these items, a tree with the root `a` may get the root `b` by a production of
one symbol. -/
def Rises (ps : List Production) (set : ItemSet) (a b : String) : Prop :=
  ∃ n p, numbered? ps n = some p ∧ p.key = b ∧ p.body = [.nonterminal a] ∧ ⟨n, 0⟩ ∈ set

/-- The production of a new root waits for the old one, and is complete behind it. -/
theorem Rises.exists_production {a b : String} (h : Rises ps set a b) :
    ∃ n p, numbered? ps n = some p ∧ p.key = b ∧ p.body = [.nonterminal a] ∧ ⟨n, 0⟩ ∈ set ∧
      (Item.mk n 0).next? ps = some (.nonterminal a) ∧
      ⟨n, p.body.length⟩ ∈ Grammar.advance ps set (.nonterminal a) := by
  obtain ⟨n, p, hp, hkey, hbody, hi⟩ := h
  have hnext : (Item.mk n 0).next? ps = some (.nonterminal a) := by
    rw [next_eq_getElem? hp, hbody]
    rfl
  refine ⟨n, p, hp, hkey, hbody, hi, hnext, ?_⟩
  rw [hbody]
  exact Grammar.mem_advance_iff.mpr ⟨hi, hnext⟩

/-- What stands behind the later of two roots stands behind the earlier. -/
theorem follow_of_rises (hps : WellDefined ps) {a b t : String} (h : TransGen (Rises ps set) a b)
    (ht : (b, t) ∈ followPairs ps) : (a, t) ∈ followPairs ps := by
  have hstep : ∀ {a b}, Rises ps set a b → (b, t) ∈ followPairs ps → (a, t) ∈ followPairs ps := by
    rintro a b ⟨n, p, hp, rfl, hbody, _⟩ ht
    have hsplit : p.body = [] ++ [.nonterminal a] := hbody
    exact Grammar.follow_last hps (Grammar.mem_of_numbered hp) hsplit ht
  induction h with
  | single h => exact hstep h ht
  | tail _ h ih => exact ih (hstep h ht)

/-- The keys on a circle through `a`. -/
def OnCircle (ps : List Production) (set : ItemSet) (a b : String) : Prop :=
  TransGen (Rises ps set) a b ∧ TransGen (Rises ps set) b a

/-- A key on a circle is followed by another. -/
theorem OnCircle.exists_rises {a b : String} (h : OnCircle ps set a b) :
    ∃ c, Rises ps set b c ∧ OnCircle ps set a c := by
  obtain ⟨c, hbc, hca⟩ := TransGen.head'_iff.mp h.2
  have hac := h.1.tail hbc
  refine ⟨c, hbc, hac, ?_⟩
  rcases Relation.reflTransGen_iff_eq_or_transGen.mp hca with rfl | hca
  · exact hac
  · exact hca

/-- The keys on a circle have the same follow sets. -/
theorem OnCircle.follow (hps : WellDefined ps) {a b c t : String} (hb : OnCircle ps set a b)
    (hc : OnCircle ps set a c) (ht : (b, t) ∈ followPairs ps) : (c, t) ∈ followPairs ps :=
  follow_of_rises hps (hc.2.trans hb.1) ht

/-- **An item outside waits for one of some keys**, when an undotted production of one of them is
in a state: not all of them can be there for the sake of the others. -/
theorem exists_exit {k : Nat} (hset : stateAt? ps k = some set) {C : String → Prop} {n : Nat}
    {p : Production} (hp : numbered? ps n = some p) (hi : ⟨n, 0⟩ ∈ set) (hC : C p.key) :
    ∃ i ∈ set, ∃ a, C a ∧ i.next? ps = some (.nonterminal a) ∧
      ¬ (i.dot = 0 ∧ ∃ q, numbered? ps i.production = some q ∧ C q.key) := by
  by_contra hnone
  have hinside : ∀ i ∈ set, ∀ a, i.next? ps = some (.nonterminal a) → C a →
      i.dot = 0 ∧ ∃ q, numbered? ps i.production = some q ∧ C q.key := by
    intro i hi a hnext ha
    by_contra hout
    exact hnone ⟨i, hi, a, ha, hnext, hout⟩
  refine (Grammar.undotted_induction (P := fun a => ¬ C a) hset ?_ ?_ hp hi).1 hC
  · intro i hi hor a hnext ha
    obtain ⟨hdot, q, hq, _⟩ := hinside i hi a hnext ha
    rcases hor with hor | hor
    · exact hor hdot
    · exact Grammar.ne_zero_of_numbered hq hor
  · intro m q a hq hm hkey hfirst ha
    obtain ⟨_, q', hq', hkey'⟩ :=
      hinside _ hm a ((Grammar.next_undotted hq).trans (congrArg some hfirst)) ha
    obtain rfl := Option.some.inj (hq.symm.trans hq')
    exact hkey hkey'

/-- A state that waits for a symbol reads the first terminal of what the symbol stands for. -/
theorem exists_leads_first {k : Nat} (hset : stateAt? ps k = some set) :
    ∀ {d : Derivation} {i : Item}, d.IsValid ps → i ∈ set → i.next? ps = some (d.symbol ps) →
      ∃ t ts n, d.leaves = t :: ts ∧ Leads ps k (.terminal t) n
  | .leaf t, i, _, hi, hnext => by
    obtain ⟨n, hl⟩ := Grammar.exists_leads hset hi hnext
    exact ⟨t, [], n, rfl, hl⟩
  | .node m [], i, hd, _, _ => absurd hd.1.choose_spec.2.symm (Production.body_ne_nil _)
  | .node m (c :: cs), i, ⟨⟨p, hp, hbody⟩, hchildren⟩, hi, hnext => by
    rw [Derivation.symbol_node hp] at hnext
    have hundotted := Grammar.closed_of_stateAt hset i hi p.key hnext m p hp rfl
    have hfirst : p.first = c.symbol ps := (List.cons.inj hbody).1.symm
    obtain ⟨t, ts, n, hleaves, hl⟩ := exists_leads_first hset hchildren.1 hundotted
      ((Grammar.next_undotted hp).trans (congrArg some hfirst))
    exact ⟨t, ts ++ Derivation.leavesOf cs, n,
      by rw [Derivation.leaves, Derivation.leavesOf, hleaves]; rfl, hl⟩

/-- What is done behind a key on a circle, before a terminal that can stand there, is to go on
round the circle. -/
theorem OnCircle.exists_reduce (hg : g.IsBuilt) {k m : Nat}
    (hset : stateAt? g.productions k = some set) {a b : String}
    (h : OnCircle g.productions set b a) (hl : Leads g.productions k (.nonterminal a) m) :
    ∃ n p, numbered? g.productions n = some p ∧ p.body = [.nonterminal a] ∧
      OnCircle g.productions set b p.key ∧ ∀ t act, (a, t) ∈ followPairs g.productions →
        Performs g.productions m t act → act = .reduce n := by
  obtain ⟨c, hrises, hc⟩ := h.exists_rises
  obtain ⟨n, p, hp, rfl, hbody, -, -, hmem⟩ := hrises.exists_production
  refine ⟨n, p, hp, hbody, hc, fun t act ht hact => ?_⟩
  have hreduce := Performs.reduce (Grammar.stateAt_of_leads hset hl) hp hmem
    (h.follow hg.wellDefined hc ht)
  have hiff := fun act => hg.built.action_eq_some_iff hg.wellDefined (k := m) (u := t) (a := act)
  exact Option.some.inj (((hiff _).mpr hact).symm.trans ((hiff _).mpr hreduce))

/-- What is done behind a key for the sake of an item that waits for the key: the sentence is
accepted, a terminal is read, or the production of the item itself is applied. -/
theorem exists_performs_behind (hg : g.IsBuilt) (hprod : Grammar.Productive g.productions)
    {stack : List Frame} (hs : Spells g.productions stack)
    (hset : stateAt? g.productions (top stack) = some set) {e d m : Nat} {a : String}
    (hi : ⟨e, d⟩ ∈ set) (hnext : (Item.mk e d).next? g.productions = some (.nonterminal a))
    (hl : Leads g.productions (top stack) (.nonterminal a) m) :
    ∃ t act, (a, t) ∈ followPairs g.productions ∧ Performs g.productions m t act ∧
      ∀ n, act = .reduce n → n = e ∧
        ∃ q, numbered? g.productions e = some q ∧ q.body.length = d + 1 := by
  have hps := hg.wellDefined
  have hset' := Grammar.stateAt_of_leads hset hl
  have hmem := Grammar.mem_advance_of_next hi hnext
  by_cases he : e = 0
  · subst he
    have hd : d < 1 := Grammar.dot_lt_of_next hnext
    obtain rfl : d = 0 := Nat.lt_one_iff.mp hd
    obtain rfl : startKey g.productions = a := by
      simpa [Item.next?, Grammar.bodyOf] using hnext
    exact ⟨_, _, Grammar.follow_start, .accept hset' hmem rfl, fun _ h => by cases h⟩
  · obtain ⟨q, hq⟩ := Grammar.exists_numbered he (Grammar.production_le_of_next hnext)
    have hget := next_eq_getElem? hq ▸ hnext
    have hsplit := Grammar.body_eq_of_getElem? hget
    cases hrest : q.body.drop (d + 1) with
    | nil =>
      -- the item is complete behind the key
      rw [hrest] at hsplit
      obtain ⟨t, ht⟩ := exists_follow hps hprod hs hset hq hi
      have hlen : q.body.length = d + 1 :=
        Nat.le_antisymm (List.drop_eq_nil_iff.mp hrest) (List.getElem?_eq_some_iff.mp hget).1
      exact ⟨t, _, Grammar.follow_last hps (Grammar.mem_of_numbered hq) hsplit ht,
        .reduce hset' hq (hlen ▸ hmem) ht, fun n hn => ⟨(Action.reduce.inj hn).symm, q, hq, hlen⟩⟩
    | cons x rest =>
      -- the item waits for more, and what it waits for begins with a terminal
      rw [hrest] at hsplit
      have hx : x ∈ q.body := hsplit ▸ by simp
      obtain ⟨y, hy, rfl⟩ := hprod.exists_derivation hps (Grammar.mem_of_numbered hq) hx
      have hnext' : (Item.mk e (d + 1)).next? g.productions = some (y.symbol g.productions) := by
        rw [next_eq_getElem? hq, ← List.head?_drop, hrest]
        rfl
      obtain ⟨t, ts, r, hleaves, hlead⟩ := exists_leads_first hset' hy hmem hnext'
      obtain ⟨t', ts', hleaves', ht⟩ := Derivation.exists_first hy
      obtain rfl := (List.cons.inj (hleaves.symm.trans hleaves')).1
      exact ⟨t, _, Grammar.follow_next hps (Grammar.mem_of_numbered hq) hsplit ht, .shift hlead,
        fun _ h => by cases h⟩

/-- **A built grammar has no circle of productions of one symbol** in the state on top of a stack
that spells a path. -/
theorem not_circle (hg : g.IsBuilt) (hprod : Grammar.Productive g.productions)
    {stack : List Frame} (hs : Spells g.productions stack)
    (hset : stateAt? g.productions (top stack) = some set) (b : String) :
    ¬ TransGen (Rises g.productions set) b b := by
  intro hcircle
  obtain ⟨c, ⟨n, p, hp, rfl, _, hi⟩, hc⟩ := OnCircle.exists_rises ⟨hcircle, hcircle⟩
  obtain ⟨⟨e, d⟩, hi, a, ha, hnext, hout⟩ :=
    exists_exit hset (C := OnCircle g.productions set b) hp hi hc
  obtain ⟨m, hl⟩ := Grammar.exists_leads hset hi hnext
  -- behind `a` the parser goes on round the circle, and does what the item outside waits for
  obtain ⟨n, p, hp, hbody, hkey, honly⟩ := ha.exists_reduce hg hset hl
  obtain ⟨t, act, ht, hact, hbehind⟩ := exists_performs_behind hg hprod hs hset hi hnext hl
  obtain ⟨rfl, q, hq, hlen⟩ := hbehind n (honly t act ht hact)
  obtain rfl := Option.some.inj (hp.symm.trans hq)
  have hd : d = 0 := by simpa [hbody] using hlen
  exact hout ⟨hd, p, hp, hkey⟩

/-! ## Traps -/

/-- Some tokens can be read as the symbol. -/
def Readable (ps : List Production) (x : Sym) : Prop := ∃ t : Tree, t.IsDerivation ps ∧ t.symbol = x

/-- The states that are led to from the first by symbols that tokens can be read as. -/
inductive Reachable (ps : List Production) : Nat → Prop
  | start : Reachable ps 0
  | leads {k n : Nat} {x : Sym} (h : Reachable ps k) (hx : Readable ps x) (hl : Leads ps k x n) :
      Reachable ps n

/-- **A trap**: in a state that tokens lead to, a key that tokens can be read as is reached again
from itself by productions of one symbol, and what is left may stand behind it. -/
structure IsTrap (ps : List Production) (k : Nat) (a : String) (rest : List Token) : Prop where
  reachable : Reachable ps k
  readable : Readable ps (.nonterminal a)
  circle : ∃ set, stateAt? ps k = some set ∧ TransGen (Rises ps set) a a
  follow : (a, lookahead rest) ∈ followPairs ps

theorem reachable_top {stack : List Frame} (hs : Spells ps stack) (hd : AllDerived ps stack) :
    Reachable ps (top stack) := by
  induction hs with
  | nil => exact .start
  | @cons f below hl _ ih =>
    rw [AllDerived, treesOf_cons] at hd
    refine .leads (ih fun t ht => hd t (List.mem_append_left _ ht)) ⟨f.tree, ?_, rfl⟩ hl
    exact hd f.tree (List.mem_append_right _ (List.mem_singleton.mpr rfl))

/-- A reachable state is on top of a stack that spells a path. -/
theorem Reachable.exists_stack {k : Nat} (h : Reachable ps k) :
    ∃ stack, Spells ps stack ∧ top stack = k := by
  induction h with
  | start => exact ⟨[], .nil, rfl⟩
  | @leads k n x _ hx hl ih =>
    obtain ⟨stack, hs, rfl⟩ := ih
    obtain ⟨t, _, rfl⟩ := hx
    exact ⟨⟨n, t⟩ :: stack, .cons hl hs, rfl⟩

/-- There is no trap where every nonterminal stands for something. -/
theorem not_isTrap_of_productive (hg : g.IsBuilt) (hprod : Grammar.Productive g.productions)
    (k : Nat) (a : String) (rest : List Token) : ¬ IsTrap g.productions k a rest := by
  intro h
  obtain ⟨stack, hs, rfl⟩ := h.reachable.exists_stack
  obtain ⟨set, hset, hcircle⟩ := h.circle
  exact not_circle hg hprod hs hset a hcircle

/-! ## Coming to an end -/

variable {stop : Nat} {c c' : Configuration} {tokens : List Token}

/-- A new root is reached from the old one. -/
theorem Raised.rises {f : Frame} {below : List Frame} {a b : String}
    (h : Raised ps c b c') (hs : Spells ps c.stack) (hstack : c.stack = f :: below)
    (hset : stateAt? ps (top below) = some set) (ha : f.tree.symbol = .nonterminal a) :
    Rises ps set a b := by
  cases h with
  | @intro f' below' set' n m p t hstack' hset' hp hbody hi _ hkey hl _ =>
    obtain ⟨rfl, rfl⟩ := List.cons.inj (hstack.symm.trans hstack')
    rw [hstack] at hs
    obtain ⟨_, _, _, set'', hset'', hi'⟩ := unwind 1 hs hset' hi
    obtain rfl := Option.some.inj (hset.symm.trans hset'')
    exact ⟨n, p, hp, hkey, by rw [hbody, ha], hi'⟩

theorem Raised.follow {a : String} (h : Raised ps c a c') :
    (a, lookahead c.rest) ∈ followPairs ps := by
  cases h with
  | intro _ _ _ _ _ hfollow hkey => exact hkey ▸ hfollow

/-- After every step the configuration is consistent: with the tokens from which the parser began,
or from which it began anew. -/
theorem exists_consistent_of_go (hg : g.IsBuilt) (h : Consistent g.productions tokens c)
    (hgo : (step g stop c).outcome = .go c') :
    ∃ tokens', Consistent g.productions tokens' c' := by
  cases hfault : (step g stop c).event.bind ParseEvent.fault? with
  | none => exact ⟨tokens, step_consistent hg.wellDefined rfl hg.built h hgo hfault⟩
  | some f =>
    have heffect := effect_step hg h.spells stop
    generalize step g stop c = s at heffect hgo hfault
    cases heffect with
    | shift => cases hfault
    | reduce => cases hfault
    | accept => cases hgo
    | fault =>
      simp only [recovery] at hgo
      split at hgo
      · cases hgo
      · obtain rfl := Outcome.go.inj hgo
        exact ⟨_, consistent_start _⟩

/-- A root that the tree on top may get before `rest`: tokens can be read as it, and what is left
may stand behind it. -/
structure RisesBefore (ps : List Production) (set : ItemSet) (rest : List Token) (a b : String) :
    Prop where
  rises : Rises ps set a b
  readable : Readable ps (.nonterminal b)
  follow : (b, lookahead rest) ∈ followPairs ps

/-- There is no infinite row of new roots where there is no trap. -/
theorem wellFounded_risesBefore {k : Nat} {rest : List Token}
    (htrap : ∀ a, ¬ IsTrap ps k a rest) (hk : Reachable ps k) (hset : stateAt? ps k = some set) :
    WellFounded fun b a : {a // a ∈ nonterminals ps} => TransGen (RisesBefore ps set rest) a b := by
  have htrans : IsTrans {a // a ∈ nonterminals ps} fun b a =>
      TransGen (RisesBefore ps set rest) a b := ⟨fun _ _ _ hab hbc => hbc.trans hab⟩
  have hirrefl : Std.Irrefl fun b a : {a // a ∈ nonterminals ps} =>
      TransGen (RisesBefore ps set rest) a b := by
    refine ⟨fun a hcircle => ?_⟩
    obtain ⟨_, _, hlast⟩ := TransGen.tail'_iff.mp hcircle
    exact htrap a ⟨hk, hlast.readable, ⟨set, hset, hcircle.lift id fun _ _ h => h.rises⟩,
      hlast.follow⟩
  exact Finite.wellFounded_of_trans_of_irrefl _

/-- When all lighter configurations come to an end, a tree with a key for its root does not get new
roots for ever. -/
theorem exists_haltsIn_of_root (hg : g.IsBuilt) {below : List Frame} {rest : List Token}
    (htrap : ∀ a, ¬ IsTrap g.productions (top below) a rest)
    (hlighter : ∀ c : Configuration, weight c < 2 * rest.length + (below.length + 1) →
      (∃ tokens, Consistent g.productions tokens c) → ∃ n, HaltsIn g stop n c)
    {a : String} (ha : a ∈ nonterminals g.productions) {f : Frame}
    (hf : f.tree.symbol = .nonterminal a)
    (hc : Consistent g.productions tokens ⟨f :: below, rest⟩) :
    ∃ n, HaltsIn g stop n ⟨f :: below, rest⟩ := by
  obtain ⟨hbelow, hk⟩ : Spells g.productions below ∧ Reachable g.productions (top below) := by
    have hs := hc.spells
    cases hs with
    | cons _ hbelow =>
      exact ⟨hbelow, reachable_top hbelow (AllDerived.take_drop hc.derivations 1).2⟩
  obtain ⟨set, hset⟩ := exists_stateAt_top hbelow
  induction hkey : (⟨a, ha⟩ : {a // a ∈ nonterminals g.productions}) using
      (wellFounded_risesBefore htrap hk hset).induction generalizing a f tokens with
  | _ key ih =>
    subst hkey
    refine exists_haltsIn_of_go fun c' hgo => ?_
    obtain ⟨tokens', hc'⟩ := exists_consistent_of_go hg hc hgo
    rcases lighter_or_raised hg hc.spells hgo with hlt | ⟨b, hraised⟩
    · exact hlighter c' (by simpa [weight] using hlt) ⟨tokens', hc'⟩
    · have hb := hraised.mem_nonterminals
      have hrises := hraised.rises hc.spells rfl hset hf
      have hfollow := hraised.follow
      cases hraised with
      | @intro f' below' _ n m p t hstack _ _ _ _ _ _ _ ht =>
        obtain ⟨rfl, rfl⟩ := List.cons.inj hstack
        have hreadable : Readable g.productions (.nonterminal b) :=
          ⟨t, hc'.derivations t (by simp [treesOf]), ht⟩
        exact ih ⟨b, hb⟩ (.single ⟨hrises, hreadable, hfollow⟩) hb ht hc' rfl

/-- **Where there is no trap the parser comes to an end.** -/
theorem exists_haltsIn (hg : g.IsBuilt) (htrap : ∀ k a rest, ¬ IsTrap g.productions k a rest)
    (hc : ∃ tokens, Consistent g.productions tokens c) : ∃ n, HaltsIn g stop n c := by
  induction hw : weight c using Nat.strong_induction_on generalizing c with
  | _ w ih =>
    subst hw
    have hlighter : ∀ c' : Configuration, weight c' < weight c →
        (∃ tokens, Consistent g.productions tokens c') → ∃ n, HaltsIn g stop n c' :=
      fun c' hlt hc' => ih _ hlt hc' rfl
    obtain ⟨tokens, hc⟩ := hc
    refine exists_haltsIn_of_go fun c' hgo => ?_
    obtain ⟨tokens', hc'⟩ := exists_consistent_of_go hg hc hgo
    rcases lighter_or_raised hg hc.spells hgo with hlt | ⟨b, hraised⟩
    · exact hlighter c' hlt ⟨tokens', hc'⟩
    · have hb := hraised.mem_nonterminals
      have hweight := hraised.weight_eq
      cases hraised with
      | intro _ _ _ _ _ _ _ _ ht =>
        exact exists_haltsIn_of_root hg (fun a => htrap _ a _)
          (fun c' hlt => hlighter c' (hweight ▸ hlt)) hb ht hc'

/-- **The parser comes to an end** within its fuel when every nonterminal stands for something. -/
theorem halts (hg : g.IsBuilt) (hprod : Grammar.Productive g.productions) (tokens : List Token) :
    ∃ n ≤ fuelFor g tokens, HaltsIn g stop n ⟨[], tokens⟩ := by
  obtain ⟨n, hn⟩ := exists_haltsIn hg (not_isTrap_of_productive hg hprod)
    ⟨tokens, consistent_start tokens⟩
  exact ⟨n, hn.le_fuelFor hg, hn⟩

end Parser

end PixQuery
