import PixQuery.Proofs.Grammar.Halting

/-!
# Where the first fault is

As long as no fault is met, the parser has read nothing but its tokens, and what is on the stack
begins a sentence. What it did depended on no more than the next token, so on a sentence with the
same beginning it would have done the same. A sentence is read to its end: where the parser stops at
a token, none has that token there.

Results:
* `Quiet.of_step`: what holds until the first fault.
* `first_fault`: a parser that comes to an end accepts a sentence, or meets its first fault.
* `first_error`: the first error is at the first token with which the tokens do not begin a sentence
  any more, or at the end when they begin one.
-/

namespace PixQuery

open Grammar (Leads stateAt? numbered? Production IsSentence BeginsSentence)
open Bare (Moves next? ahead ofFrame)

namespace Parser

variable {g : Grammar} {tokens : List Token} {c c' : Configuration} {stop : Nat}

/-! ## Until the first fault -/

/-- No fault was met on the way to a configuration: it is consistent, and the same moves are made on
every word that goes on with the same terminal. -/
structure Quiet (g : Grammar) (tokens : List Token) (c : Configuration) : Prop where
  consistent : Consistent g.productions tokens c
  moves : ∀ us, ahead us = lookahead c.rest →
    ∃ n, Moves g n ⟨[], terminalsOn c.stack ++ us⟩ ⟨c.stack.map ofFrame, us⟩

theorem quiet_start (g : Grammar) (tokens : List Token) : Quiet g tokens ⟨[], tokens⟩ :=
  ⟨consistent_start tokens, fun us _ => ⟨0, .refl ⟨[], us⟩⟩⟩

theorem terminalsOn_cons (f : Frame) (below : List Frame) :
    terminalsOn (f :: below) = terminalsOn below ++ f.tree.tokens.map Token.terminal := by
  simp [terminalsOn, treesOf_cons, Tree.tokensOf_append, Tree.tokensOf]

/-- Applying a production leaves the terminals on the stack as they are. -/
theorem terminalsOn_reduced (stack : List Frame) (m n d : Nat) (key : String) (range : Span) :
    terminalsOn (⟨m, .node n key (treesOf (stack.take d)) range⟩ :: stack.drop d) =
      terminalsOn stack := by
  rw [terminalsOn_cons, terminalsOn_take_drop d stack]
  rfl

/-- Reading a token, on every word that goes on with it. -/
theorem Quiet.moves_shift (hg : g.IsBuilt) (h : Quiet g tokens c) {t : Token} {ts : List Token}
    (hrest : c.rest = t :: ts) {n : Nat}
    (hl : Leads g.productions (top c.stack) (.terminal t.terminal) n) (us : List String) :
    ∃ k, Moves g k ⟨[], terminalsOn (⟨n, .leaf t⟩ :: c.stack) ++ us⟩
      ⟨(⟨n, .leaf t⟩ :: c.stack).map ofFrame, us⟩ := by
  obtain ⟨k, hk⟩ := h.moves (t.terminal :: us) (by rw [hrest]; rfl)
  have haction := (hg.built.action_eq_some_iff hg.wellDefined).mpr (.shift hl)
  rw [terminalsOn_cons, List.append_assoc]
  refine ⟨k + 1, hk.trans (.single ?_)⟩
  simp only [next?, Bare.top_ofFrame, ahead, List.head?_cons, Option.getD_some, haction]
  rfl

/-- Applying a production behind some moves, before any terminal that can stand behind its key. -/
theorem exists_moves_reduce (hg : g.IsBuilt) {stack : List Frame} {us : List String} {n m : Nat}
    {p : Production} {range : Span} {set : Grammar.ItemSet}
    (hmoves : ∃ k, Moves g k ⟨[], terminalsOn stack ++ us⟩ ⟨stack.map ofFrame, us⟩)
    (hset : stateAt? g.productions (top stack) = some set)
    (hp : numbered? g.productions n = some p) (hi : ⟨n, p.body.length⟩ ∈ set)
    (hfollow : (p.key, ahead us) ∈ Grammar.followPairs g.productions)
    (hl : Leads g.productions (top (stack.drop p.body.length)) (.nonterminal p.key) m) :
    let stack' := ⟨m, .node n p.key (treesOf (stack.take p.body.length)) range⟩ ::
      stack.drop p.body.length
    ∃ k, Moves g k ⟨[], terminalsOn stack' ++ us⟩ ⟨stack'.map ofFrame, us⟩ := by
  obtain ⟨k, hk⟩ := hmoves
  have haction := (hg.built.action_eq_some_iff hg.wellDefined).mpr (.reduce hset hp hi hfollow)
  have hkey := Grammar.mem_nonterminals.mpr ⟨p, Grammar.mem_of_numbered hp, rfl⟩
  have hgoto := (hg.built.goto_eq_some_iff hkey).mpr hl
  simp only [terminalsOn_reduced]
  refine ⟨k + 1, hk.trans (.single ?_)⟩
  simp only [next?, Bare.top_ofFrame, haction, Grammar.production?_eq_numbered?, hp,
    Option.bind_eq_bind, Option.bind_some, ← List.map_drop, hgoto]
  simp only [List.map_cons, ofFrame, Tree.derivation, treesOf, Bare.derivations_ofFrame,
    List.map_take]
  rfl

/-- **A step without a fault keeps the run quiet.** -/
theorem Quiet.of_step (hg : g.IsBuilt) (h : Quiet g tokens c)
    (hgo : (step g stop c).outcome = .go c')
    (hfault : (step g stop c).event.bind ParseEvent.fault? = none) : Quiet g tokens c' := by
  refine ⟨step_consistent hg.wellDefined rfl hg.built h.consistent hgo hfault, ?_⟩
  generalize hs : step g stop c = s at hgo hfault
  have heffect := hs ▸ effect_step hg h.consistent.spells stop
  cases heffect with
  | shift hrest hl =>
    obtain rfl := Outcome.go.inj hgo
    exact fun us _ => h.moves_shift hg hrest hl us
  | reduce hset hp hi hfollow hl =>
    obtain rfl := Outcome.go.inj hgo
    exact fun us hus => exists_moves_reduce hg (h.moves us hus) hset hp hi (hus ▸ hfollow) hl
  | accept => cases hgo
  | fault => simp [recovery, ParseEvent.fault?] at hfault

/-! ## At the first fault -/

/-- What is on the stack begins a sentence. -/
theorem Quiet.beginsSentence (hg : g.IsBuilt) (hprod : Grammar.Productive g.productions)
    (h : Quiet g tokens c) : BeginsSentence g.productions (terminalsOn c.stack) :=
  beginsSentence_of_spells hg.wellDefined hprod h.consistent.spells h.consistent.derivations

/-- **No sentence goes on with a token that the parser stops at.** -/
theorem Quiet.not_beginsSentence (hg : g.IsBuilt) (h : Quiet g tokens c) {t : Token}
    {ts : List Token} (hrest : c.rest = t :: ts)
    (haction : g.table.action (top c.stack) (lookahead c.rest) = none) :
    ¬ BeginsSentence g.productions (terminalsOn c.stack ++ [t.terminal]) := by
  rintro ⟨us, d, hd, hleaves⟩
  obtain ⟨q, hmoves, haccept⟩ := Derivation.exists_accepted hg.wellDefined rfl hg.built hd
  obtain ⟨n, hmoves'⟩ := h.moves (t.terminal :: us) (by rw [hrest]; rfl)
  rw [hleaves, List.append_assoc, List.singleton_append] at hmoves
  have hstop : next? g ⟨c.stack.map ofFrame, t.terminal :: us⟩ = none := by
    rw [hrest, lookahead_cons] at haction
    simp only [next?, Bare.top_ofFrame, ahead, List.head?_cons, Option.getD_some, haction]
  have heq := (hmoves.unique hmoves' (Derivation.next_eq_none_of_accept haccept) hstop).2
  cases (Bare.mk.inj heq).2

/-- What was accepted is a sentence. -/
theorem Quiet.isSentence (hg : g.IsBuilt) (h : Quiet g tokens c) {tree : Tree}
    (hstop : (step g stop c).outcome = .stop (some tree)) :
    IsSentence g.productions (tokens.map Token.terminal) := by
  obtain ⟨hd, _, htokens, hsymbol⟩ :=
    accepted_of_consistent hg.wellDefined hg.built h.consistent hstop
  refine ⟨tree.derivation, ⟨Tree.isValid_derivation hd, ?_⟩, ?_⟩
  · rw [Tree.symbol_derivation hd, hsymbol]
  · rw [Tree.leaves_derivation, htokens]

/-- It passes from a configuration of a quiet run on to the next one. -/
def KeptBy (g : Grammar) (stop : Nat) (tokens : List Token) (P : Configuration → Prop) : Prop :=
  ∀ ⦃c c'⦄, Quiet g tokens c → P c → (step g stop c).outcome = .go c' →
    (step g stop c).event.bind ParseEvent.fault? = none → P c'

/-- **A parser that comes to an end** accepts a sentence, or meets its first fault after a quiet
run. There everything holds that the steps have kept. -/
theorem first_fault (hg : g.IsBuilt) {P : Configuration → Prop} (hkept : KeptBy g stop tokens P)
    {n : Nat} (h : HaltsIn g stop n c) (hq : Quiet g tokens c) (hP : P c) :
    ∀ fuel, n ≤ fuel → IsSentence g.productions (tokens.map Token.terminal) ∨
      ∃ d, Quiet g tokens d ∧ P d ∧
        g.table.action (top d.stack) (lookahead d.rest) = none ∧
        (faultsOf (run g stop fuel c)).head? = some (faultAt g stop (top d.stack) d.rest) := by
  induction h with
  | @stop c tree hstop =>
    intro fuel hfuel
    obtain ⟨fuel, rfl⟩ := Nat.exists_eq_add_of_le' hfuel
    rw [run_of_stop hstop]
    have heffect := effect_step hg hq.consistent.spells stop
    generalize hs : step g stop c = s at heffect hstop
    cases heffect with
    | shift => cases hstop
    | reduce => cases hstop
    | accept => exact Or.inl (hq.isSentence hg (by rw [hs]))
    | fault haction => exact Or.inr ⟨c, hq, hP, haction, rfl⟩
  | @go n c c' hgo _ ih =>
    intro fuel hfuel
    obtain ⟨fuel, rfl⟩ := Nat.exists_eq_add_of_le' (Nat.le_trans (Nat.le_add_left 1 n) hfuel)
    rw [run_of_go hgo]
    cases hfault : (step g stop c).event.bind ParseEvent.fault? with
    | none =>
      rcases ih (hq.of_step hg hgo hfault) (hkept hq hP hgo hfault) fuel
        (Nat.le_of_succ_le_succ hfuel) with h | h
      · exact Or.inl h
      · refine Or.inr ?_
        have hnone : (step g stop c).event.toList.filterMap ParseEvent.fault? = [] := by
          cases hevent : (step g stop c).event with
          | none => rfl
          | some e => simpa [hevent] using hfault
        simpa only [faultsOf, List.filterMap_append, hnone, List.nil_append] using h
    | some f =>
      have heffect := effect_step hg hq.consistent.spells stop
      generalize hs : step g stop c = s at heffect hgo hfault
      cases heffect with
      | shift => cases hfault
      | reduce => cases hfault
      | accept => cases hgo
      | fault haction => exact Or.inr ⟨c, hq, hP, haction, rfl⟩

end Parser

namespace Grammar

variable {g : Grammar} {tokens : List Token}

/-- The terminals of tokens. -/
def terminalsOf (tokens : List Token) : List String := tokens.map Token.terminal

/-- A sentence is parsed without an error. -/
theorem errors_of_isSentence (hg : g.IsBuilt) (h : IsSentence g.productions (terminalsOf tokens)) :
    (g.parse tokens).errors = [] := by
  obtain ⟨d, hd, hleaves⟩ := h
  obtain ⟨tree, hparse, _⟩ := parse_of_derives hg.wellDefined hg.table hd hleaves.symm
  rw [hparse]

/-- The tokens begin a sentence without the one with the number `i`, and none with it. -/
structure LeavesAt (ps : List Production) (tokens : List Token) (i : Nat) : Prop where
  before : BeginsSentence ps (terminalsOf (tokens.take i))
  within : ¬ BeginsSentence ps (terminalsOf (tokens.take (i + 1)))

/-- Tokens that leave the grammar somewhere do not begin a sentence. -/
theorem LeavesAt.not_beginsSentence {ps : List Production} {i : Nat} (h : LeavesAt ps tokens i) :
    ¬ BeginsSentence ps (terminalsOf tokens) := by
  intro hall
  rw [← List.take_append_drop (i + 1) tokens, terminalsOf, List.map_append] at hall
  exact h.within hall.of_append

/-- The fault is behind the first `i` tokens: at the token with which they do not begin a sentence
any more, or at the end. -/
def IsBehind (ps : List Production) (tokens : List Token) (i : Nat) : SyntaxFault → Prop
  | .unexpectedToken text _ range =>
    LeavesAt ps tokens i ∧ ∃ t, tokens[i]? = some t ∧ t.text = text ∧ t.range = range
  | .unexpectedEnd _ position => i = tokens.length ∧ position = Parser.stopOf tokens

/-- **A quiet run stops behind the tokens on the stack.** -/
theorem exists_isBehind (hg : g.IsBuilt) (hprod : Productive g.productions)
    {c : Parser.Configuration} (hquiet : Parser.Quiet g tokens c)
    (haction : g.table.action (Parser.top c.stack) (Parser.lookahead c.rest) = none) :
    ∃ i, IsBehind g.productions tokens i
        (Parser.faultAt g (Parser.stopOf tokens) (Parser.top c.stack) c.rest) ∧
      terminalsOf (tokens.take i) = Parser.terminalsOn c.stack := by
  obtain ⟨stack, rest⟩ := c
  have hbegins := hquiet.beginsSentence hg hprod
  have htokens := hquiet.consistent.tokens
  refine ⟨(Tree.tokensOf (Parser.treesOf stack)).length, ?_, ?_⟩
  · cases rest with
    | nil =>
      rw [List.append_nil] at htokens
      exact ⟨congrArg List.length htokens, rfl⟩
    | cons t ts =>
      have hends := hquiet.not_beginsSentence hg rfl haction
      simp only at hbegins hends htokens
      generalize hread : Tree.tokensOf (Parser.treesOf stack) = read at htokens
      rw [Parser.terminalsOn, hread] at hbegins hends
      subst htokens
      refine ⟨⟨?_, ?_⟩, t, by simp, rfl, rfl⟩
      · rw [List.take_left]
        exact hbegins
      · rw [List.take_length_add_append, List.take_succ_cons, List.take_zero, terminalsOf,
          List.map_append]
        exact hends
  · rw [← htokens, List.take_left]
    rfl

/-- **The first error** of tokens that are no sentence is at the first token with which they do not
begin one, or at their end when they begin one. -/
theorem first_error (hg : g.IsBuilt) (hprod : Productive g.productions) (hne : tokens ≠ [])
    (hnot : ¬ IsSentence g.productions (terminalsOf tokens)) :
    (∃ i t expected, tokens[i]? = some t ∧ LeavesAt g.productions tokens i ∧
      (g.parse tokens).errors.head? = some (.unexpectedToken t.text expected t.range)) ∨
    (BeginsSentence g.productions (terminalsOf tokens) ∧ ∃ expected,
      (g.parse tokens).errors.head? = some (.unexpectedEnd expected (Parser.stopOf tokens))) := by
  obtain ⟨n, hle, hn⟩ := @Parser.halts _ (Parser.stopOf tokens) hg hprod tokens
  obtain ⟨⟨stack, rest⟩, hquiet, -, haction, hfirst⟩ :=
    (Parser.first_fault hg (P := fun _ => True) (fun _ _ _ _ _ _ => trivial) hn
      (Parser.quiet_start g tokens) trivial _ hle).resolve_left hnot
  obtain ⟨i, hbehind, hterminals⟩ := exists_isBehind hg hprod hquiet haction
  have hbegins := hterminals ▸ hquiet.beginsSentence hg hprod
  rw [errors_parse hne, hfirst]
  cases rest with
  | nil =>
    rw [hbehind.1, List.take_length] at hbegins
    exact Or.inr ⟨hbegins, _, rfl⟩
  | cons t ts =>
    obtain ⟨hleaves, t', ht', htext, hrange⟩ := hbehind
    exact Or.inl ⟨i, t', _, ht', hleaves, by rw [htext, hrange]; rfl⟩

/-- An error at the end tells tokens that begin a sentence and are none. -/
theorem unexpectedEnd_iff (hg : g.IsBuilt) (hprod : Productive g.productions) (hne : tokens ≠ []) :
    (∃ expected stop, (g.parse tokens).errors.head? = some (.unexpectedEnd expected stop)) ↔
      BeginsSentence g.productions (terminalsOf tokens) ∧
        ¬ IsSentence g.productions (terminalsOf tokens) := by
  constructor
  · rintro ⟨expected, stop, hhead⟩
    have hnot : ¬ IsSentence g.productions (terminalsOf tokens) := by
      intro h
      rw [errors_of_isSentence hg h] at hhead
      cases hhead
    rcases first_error hg hprod hne hnot with ⟨_, _, _, _, _, htoken⟩ | ⟨hbegins, _⟩
    · rw [htoken] at hhead
      cases hhead
    · exact ⟨hbegins, hnot⟩
  · rintro ⟨hbegins, hnot⟩
    rcases first_error hg hprod hne hnot with ⟨_, _, _, _, hleaves, _⟩ | ⟨_, expected, hend⟩
    · exact absurd hbegins hleaves.not_beginsSentence
    · exact ⟨expected, _, hend⟩

end Grammar

end PixQuery
