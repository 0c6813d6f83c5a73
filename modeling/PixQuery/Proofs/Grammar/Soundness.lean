import PixQuery.Proofs.Grammar.Definition
import PixQuery.Proofs.Grammar.Derivation
import PixQuery.Proofs.Grammar.Table

/-!
# What the parser accepts is a sentence

The stack of the parser spells a path through the automaton from its first state: the state of each
frame is reached from the one below it by seeing the symbol of its tree. An item with symbols in
front of its dot can only be in the state on top when these symbols are on top of the stack, so a
production is applied to its own body. Every step keeps that, together with the tokens: those of the
trees on the stack, followed by those that are left, are the tokens that were parsed.

Results:
* `unwind`: what an item in the state on top says about the frames below.
* `step_consistent`, `accepted_of_consistent`: a step keeps the invariant, and what is accepted
  under it is a derivation of all tokens.
* `parse_sound`: a tree that the parser returns is a derivation of the whole input.
-/

namespace PixQuery

open Grammar (Leads stateAt? startSet numbered? bodyOf Built WellDefined)

namespace Parser

variable {ps : List Grammar.Production} {g : Grammar}

/-! ## The stack spells a path of the automaton -/

/-- Each state is reached from the one below it by seeing the symbol of the tree between them. -/
inductive Spells (ps : List Grammar.Production) : List Frame → Prop
  | nil : Spells ps []
  | cons {f : Frame} {below : List Frame} (h : Leads ps (top below) f.tree.symbol f.state)
      (hbelow : Spells ps below) : Spells ps (f :: below)

@[simp] theorem top_nil : top [] = 0 := rfl

@[simp] theorem top_cons (f : Frame) (below : List Frame) : top (f :: below) = f.state := rfl

/-- The state on top of a stack that spells a path has an item set. -/
theorem exists_stateAt_top {stack : List Frame} (h : Spells ps stack) :
    ∃ set, stateAt? ps (top stack) = some set := by
  induction h with
  | nil => exact ⟨_, Grammar.stateAt_zero⟩
  | cons hl _ ih =>
    obtain ⟨set, hset⟩ := ih
    exact ⟨_, Grammar.stateAt_of_leads hset hl⟩

/-- **An item on top says what lies below it**: the symbols in front of its dot, and under them a
state in which its production has not been begun. -/
theorem unwind {n : Nat} : ∀ (d : Nat) {stack : List Frame} {set : Grammar.ItemSet},
    Spells ps stack → stateAt? ps (top stack) = some set → ⟨n, d⟩ ∈ set →
      (stack.take d).reverse.map (fun f => f.tree.symbol) = (bodyOf ps n).take d ∧
      d ≤ stack.length ∧ Spells ps (stack.drop d) ∧
      ∃ set', stateAt? ps (top (stack.drop d)) = some set' ∧ ⟨n, 0⟩ ∈ set'
  | 0, stack, set, h, hset, hi => ⟨rfl, Nat.zero_le _, h, set, hset, hi⟩
  | d + 1, [], set, _, hset, hi => by
    rw [top_nil, Grammar.stateAt_zero, Option.some.injEq] at hset
    exact absurd (Grammar.mem_startSet_dot (hset ▸ hi)) (Nat.succ_ne_zero d)
  | d + 1, f :: below, set, .cons hl hbelow, hset, hi => by
    obtain ⟨set', hset'⟩ := exists_stateAt_top hbelow
    have heq := Grammar.stateAt_of_leads hset' hl
    rw [top_cons] at hset
    obtain rfl := Option.some.inj (hset.symm.trans heq)
    obtain ⟨hi', hnext⟩ := Grammar.mem_advance_iff.mp hi
    obtain ⟨hsymbols, hlen, hdrop, hbottom⟩ := unwind d hbelow hset' hi'
    refine ⟨?_, by simpa using hlen, by simpa using hdrop, by simpa using hbottom⟩
    have hget : (bodyOf ps n)[d]? = some f.tree.symbol := hnext
    rw [List.take_succ_cons, List.reverse_cons, List.map_append, hsymbols, List.take_add_one, hget]
    rfl

/-- A stack over an item of the added production is empty. -/
theorem eq_nil_of_zero_mem {stack : List Frame} {set : Grammar.ItemSet} (h : Spells ps stack)
    (hset : stateAt? ps (top stack) = some set) (hi : ⟨0, 0⟩ ∈ set) : stack = [] := by
  cases h with
  | nil => rfl
  | @cons f below hl hbelow =>
    obtain ⟨set', hset'⟩ := exists_stateAt_top hbelow
    have heq := Grammar.stateAt_of_leads hset' hl
    rw [top_cons] at hset
    obtain rfl := Option.some.inj (hset.symm.trans heq)
    exact absurd hi (Grammar.zero_not_mem_advance _ _)

/-- The complete item of the added production stands on a tree of the start key, alone. -/
theorem exists_root {stack : List Frame} {set : Grammar.ItemSet} (h : Spells ps stack)
    (hset : stateAt? ps (top stack) = some set) (hi : ⟨0, 1⟩ ∈ set) :
    ∃ f, stack = [f] ∧ f.tree.symbol = .nonterminal (Grammar.startKey ps) := by
  obtain ⟨hsymbols, hlen, hdrop, set', hset', hi'⟩ := unwind 1 h hset hi
  have hbottom := eq_nil_of_zero_mem hdrop hset' hi'
  rw [List.drop_eq_nil_iff] at hbottom
  obtain ⟨f, rfl⟩ := List.length_eq_one_iff.mp (Nat.le_antisymm hbottom hlen)
  exact ⟨f, rfl, by simpa [bodyOf] using hsymbols⟩

/-! ## The invariant of a run without faults -/

/-- The trees of a stack, from left to right. -/
def treesOf (stack : List Frame) : List Tree := stack.reverse.map Frame.tree

theorem treesOf_cons (f : Frame) (below : List Frame) :
    treesOf (f :: below) = treesOf below ++ [f.tree] := by
  simp [treesOf]

theorem treesOf_take_drop (d : Nat) (stack : List Frame) :
    treesOf stack = treesOf (stack.drop d) ++ treesOf (stack.take d) := by
  rw [treesOf, treesOf, treesOf, ← List.map_append, ← List.reverse_append, List.take_append_drop]

/-- The stack spells a path, its trees are derivations, and no token is lost or out of place. -/
structure Consistent (ps : List Grammar.Production) (tokens : List Token) (c : Configuration) :
    Prop where
  spells : Spells ps c.stack
  derivations : ∀ t ∈ treesOf c.stack, t.IsDerivation ps
  located : ∀ t ∈ treesOf c.stack, t.Located
  tokens : Tree.tokensOf (treesOf c.stack) ++ c.rest = tokens

theorem consistent_start (tokens : List Token) : Consistent ps tokens ⟨[], tokens⟩ :=
  ⟨.nil, fun _ h => absurd h List.not_mem_nil, fun _ h => absurd h List.not_mem_nil, rfl⟩

theorem spelling_ne_eof (s : Symbol) : s.spelling ≠ Grammar.eof := by
  cases s <;> decide

theorem terminal_ne_eof (t : Token) : t.terminal ≠ Grammar.eof := by
  obtain ⟨lexeme, range⟩ := t
  cases lexeme with
  | string value kind => exact (by decide : "str" ≠ Grammar.eof)
  | symbol s => exact spelling_ne_eof s

theorem rest_eq_nil_of_lookahead {rest : List Token} (h : lookahead rest = Grammar.eof) :
    rest = [] := by
  cases rest with
  | nil => rfl
  | cons t ts => exact absurd h (terminal_ne_eof t)

theorem lookahead_cons (t : Token) (ts : List Token) : lookahead (t :: ts) = t.terminal := rfl

variable {tokens : List Token} {c : Configuration}

theorem consistent_shift {n : Nat} {t : Token} {ts : List Token} (h : Consistent ps tokens c)
    (hrest : c.rest = t :: ts) (hl : Leads ps (top c.stack) (.terminal t.terminal) n) :
    Consistent ps tokens ⟨⟨n, .leaf t⟩ :: c.stack, ts⟩ := by
  refine ⟨.cons hl h.spells, fun u hu => ?_, fun u hu => ?_, ?_⟩
  · rw [treesOf_cons, List.mem_append, List.mem_singleton] at hu
    rcases hu with hu | rfl
    · exact h.derivations u hu
    · trivial
  · rw [treesOf_cons, List.mem_append, List.mem_singleton] at hu
    rcases hu with hu | rfl
    · exact h.located u hu
    · trivial
  · rw [treesOf_cons, Tree.tokensOf_append, ← h.tokens, hrest]
    simp [Tree.tokensOf, Tree.tokens]

/-- The children that a complete item takes from the stack are the body of its production. -/
theorem symbols_of_complete {n : Nat} {p : Grammar.Production} {set : Grammar.ItemSet}
    (h : Spells ps c.stack) (hset : stateAt? ps (top c.stack) = some set)
    (hp : numbered? ps n = some p) (hi : ⟨n, p.body.length⟩ ∈ set) :
    (treesOf (c.stack.take p.body.length)).map Tree.symbol = p.body := by
  have hsymbols := (unwind _ h hset hi).1
  rw [Grammar.bodyOf_of_numbered hp, List.take_length] at hsymbols
  rw [treesOf, List.map_map]
  exact hsymbols

theorem consistent_reduce {n m position : Nat} {p : Grammar.Production} {set : Grammar.ItemSet}
    (h : Consistent ps tokens c) (hset : stateAt? ps (top c.stack) = some set)
    (hp : numbered? ps n = some p) (hi : ⟨n, p.body.length⟩ ∈ set)
    (hl : Leads ps (top (c.stack.drop p.body.length)) (.nonterminal p.key) m) :
    Consistent ps tokens ⟨⟨m, .node n p.key (treesOf (c.stack.take p.body.length))
      (childrenRange position (treesOf (c.stack.take p.body.length)))⟩ ::
        c.stack.drop p.body.length, c.rest⟩ := by
  have hsymbols := symbols_of_complete h.spells hset hp hi
  have hsplit := treesOf_take_drop p.body.length c.stack
  have hne : treesOf (c.stack.take p.body.length) ≠ [] := by
    intro hnil
    rw [hnil] at hsymbols
    exact p.body_ne_nil hsymbols.symm
  refine ⟨.cons hl (unwind _ h.spells hset hi).2.2.1, fun u hu => ?_, fun u hu => ?_, ?_⟩
  · rw [treesOf_cons, List.mem_append, List.mem_singleton] at hu
    rcases hu with hu | rfl
    · exact h.derivations u (hsplit ▸ List.mem_append_left _ hu)
    · exact ⟨⟨p, hp, rfl, hsymbols⟩, Tree.allDerivations_iff.mpr fun t ht =>
        h.derivations t (hsplit ▸ List.mem_append_right _ ht)⟩
  · rw [treesOf_cons, List.mem_append, List.mem_singleton] at hu
    rcases hu with hu | rfl
    · exact h.located u (hsplit ▸ List.mem_append_left _ hu)
    · exact ⟨⟨hne, Tree.childrenRange_of_ne_nil hne _ _⟩, Tree.allLocated_iff.mpr fun t ht =>
        h.located t (hsplit ▸ List.mem_append_right _ ht)⟩
  · rw [← h.tokens, hsplit, treesOf_cons, Tree.tokensOf_append, Tree.tokensOf_append]
    simp [Tree.tokensOf, Tree.tokens]

/-- **A step without a fault keeps the invariant.** -/
theorem step_consistent (hps : WellDefined ps) (hg : g.productions = ps) (hb : Built ps g.table)
    {stop : Nat} {c' : Configuration} (h : Consistent ps tokens c)
    (hgo : (step g stop c).outcome = .go c')
    (hfault : (step g stop c).event.bind ParseEvent.fault? = none) :
    Consistent ps tokens c' := by
  unfold step at hgo hfault
  simp only at hgo hfault
  split at hgo
  · rename_i n haction
    cases (hb.action_eq_some_iff hps).mp haction with
    | shift hl =>
      unfold shift at hgo
      split at hgo
      · simp at hgo
      · rename_i t ts hrest
        obtain rfl := Outcome.go.inj hgo
        rw [hrest, lookahead_cons] at hl
        exact consistent_shift h hrest hl
  · rename_i n haction
    cases (hb.action_eq_some_iff hps).mp haction with
    | @reduce set _ p hset hp hi _ =>
      unfold reduce at hgo
      rw [Grammar.production?_eq_numbered?, hg, hp] at hgo
      simp only at hgo
      split at hgo
      · simp at hgo
      · rename_i m hgoto
        obtain rfl := Outcome.go.inj hgo
        have hkey := Grammar.mem_nonterminals.mpr ⟨p, Grammar.mem_of_numbered hp, rfl⟩
        exact consistent_reduce h hset hp hi ((hb.goto_eq_some_iff hkey).mp hgoto)
  · simp at hgo
  · rename_i haction
    rw [haction] at hfault
    simp [recovery, ParseEvent.fault?] at hfault

/-- **What is accepted** is a derivation of all tokens from the start key. -/
theorem accepted_of_consistent (hps : WellDefined ps) (hb : Built ps g.table) {stop : Nat}
    {tree : Tree} (h : Consistent ps tokens c)
    (hstop : (step g stop c).outcome = .stop (some tree)) :
    tree.IsDerivation ps ∧ tree.Located ∧ tree.tokens = tokens ∧
      tree.symbol = .nonterminal (Grammar.startKey ps) := by
  unfold step at hstop
  simp only at hstop
  split at hstop
  · unfold shift at hstop
    split at hstop <;> simp at hstop
  · unfold reduce at hstop
    split at hstop
    · simp at hstop
    · simp only at hstop
      split at hstop <;> simp at hstop
  · rename_i haction
    simp only [Outcome.stop.injEq] at hstop
    cases (hb.action_eq_some_iff hps).mp haction with
    | @accept set hset hi heof =>
      have hrest := rest_eq_nil_of_lookahead heof
      obtain ⟨f, hstack, hsymbol⟩ := exists_root h.spells hset hi
      rw [hstack] at hstop
      have htree : f.tree = tree := by
        simp only [accepted, List.head?_cons, Option.map_some, Option.bind_some] at hstop
        split at hstop
        · exact Option.some.inj hstop
        · simp at hstop
      have hmem : tree ∈ treesOf c.stack := by simp [hstack, treesOf, htree]
      refine ⟨h.derivations tree hmem, h.located tree hmem, ?_, htree ▸ hsymbol⟩
      rw [← h.tokens, hrest, hstack]
      simp [treesOf, htree, Tree.tokensOf]
  · simp only [recovery] at hstop
    split at hstop <;> simp at hstop

/-- A run that ends with a tree and met no fault has derived all tokens. -/
theorem run_sound (hps : WellDefined ps) (hg : g.productions = ps) (hb : Built ps g.table)
    {stop : Nat} {tree : Tree} : ∀ (fuel : Nat) {c : Configuration}, Consistent ps tokens c →
      (run g stop fuel c).2 = some tree →
      (run g stop fuel c).1.filterMap ParseEvent.fault? = [] →
      tree.IsDerivation ps ∧ tree.Located ∧ tree.tokens = tokens ∧
        tree.symbol = .nonterminal (Grammar.startKey ps)
  | 0, _, _, hrun, _ => by simp [run] at hrun
  | fuel + 1, c, h, hrun, hfaults => by
    simp only [run] at hrun hfaults
    split at hrun
    · rename_i tree' hstop
      simp only at hrun
      exact accepted_of_consistent hps hb h (hrun ▸ hstop)
    · rename_i c' hgo
      rw [hgo] at hfaults
      simp only [List.filterMap_append, List.append_eq_nil_iff] at hfaults
      refine run_sound hps hg hb fuel (step_consistent hps hg hb h hgo ?_) hrun hfaults.2
      cases hevent : (step g stop c).event with
      | none => rfl
      | some e => simpa [hevent] using hfaults.1

end Parser

namespace Grammar

theorem wellDefined_productionsOf {rules : List Rule} (h : rules ≠ []) :
    WellDefined (productionsOf rules) where
  nonempty := by simpa [productionsOf] using h
  keys p hp a ha := by
    simp only [productionsOf, List.mem_map] at hp
    obtain ⟨r, hr, rfl⟩ := hp
    have hname : ∃ name, Sym.ofName (rules.map Rule.key) name = .nonterminal a := by
      simp only [Production.body, List.mem_cons, List.mem_map] at ha
      rcases ha with ha | ⟨name, _, ha⟩
      · exact ⟨_, ha.symm⟩
      · exact ⟨_, ha⟩
    obtain ⟨name, hname⟩ := hname
    unfold Sym.ofName at hname
    split at hname
    · rename_i hkey
      obtain rfl := Sym.nonterminal.inj hname
      obtain ⟨r', hr', heq⟩ := List.mem_map.mp (List.contains_iff_mem.mp hkey)
      exact mem_nonterminals.mpr ⟨_, List.mem_map.mpr ⟨r', hr', rfl⟩, heq⟩
    · simp at hname

theorem wellDefined_of_readDefinition {text : String} {ps : List Production}
    (h : readDefinition text = .ok ps) : WellDefined ps := by
  obtain ⟨rules, hne, rfl, _⟩ := rules_of_readDefinition h
  exact wellDefined_productionsOf hne

/-- The productions of a grammar text, and the table that was built from them. -/
theorem built_of_ofText {text : String} {g : Grammar} (h : ofText text = .ok g) :
    WellDefined g.productions ∧ Built g.productions g.table := by
  unfold ofText at h
  split at h
  · simp at h
  · rename_i ps hps
    obtain ⟨hg, hb⟩ := built_of_ofProductions h
    exact ⟨hg ▸ wellDefined_of_readDefinition hps, hg ▸ hb⟩

/-- The productions of a grammar are those that its text was read as. -/
theorem productions_of_ofText {text : String} {ps : List Production} {g : Grammar}
    (hps : readDefinition text = .ok ps) (h : ofText text = .ok g) : g.productions = ps := by
  rw [ofText, hps] at h
  exact (built_of_ofProductions h).1

/-- A tree that is returned was met without a fault. -/
theorem errors_eq_nil_of_parse {g : Grammar} {tokens : List Token} {tree : Tree}
    (h : (g.parse tokens).result = some tree) :
    (g.parse tokens).errors = [] ∧ (Parser.trace g tokens).2 = some tree ∧
      (Parser.trace g tokens).1.filterMap ParseEvent.fault? = [] := by
  obtain ⟨herrors, htree⟩ := (Findings.finish_result_eq_some_iff _ _).mp h
  exact ⟨herrors, htree, herrors⟩

/-- What the parser returns is a located derivation of all tokens from the start key. -/
theorem derivation_of_parse {g : Grammar} {tokens : List Token} {tree : Tree}
    (hps : WellDefined g.productions) (hb : Built g.productions g.table)
    (h : (g.parse tokens).result = some tree) :
    tree.IsDerivation g.productions ∧ tree.Located ∧ tree.tokens = tokens ∧
      tree.symbol = .nonterminal (startKey g.productions) := by
  obtain ⟨_, htrace, hfaults⟩ := errors_eq_nil_of_parse h
  unfold Parser.trace at htrace hfaults
  split at htrace
  · simp at htrace
  · rename_i hne
    rw [if_neg hne] at hfaults
    exact Parser.run_sound hps rfl hb _ (Parser.consistent_start tokens) htrace hfaults

/-- **The parser is sound.** A tree that it returns comes without an error and is a derivation of
the whole input from the key of the first production; each of its nodes covers its tokens. -/
theorem parse_sound {text : String} {g : Grammar} (hg : ofText text = .ok g) {tokens : List Token}
    (horder : InOrder tokens) {tree : Tree} (h : (g.parse tokens).result = some tree) :
    (g.parse tokens).errors = [] ∧
      (∃ p, g.productions.head? = some p ∧ tree.symbol = .nonterminal p.key) ∧
      tree.IsDerivation g.productions ∧ tree.tokens = tokens ∧ tree.Spanned := by
  obtain ⟨hps, hb⟩ := built_of_ofText hg
  obtain ⟨hderivation, hlocated, htokens, hsymbol⟩ := derivation_of_parse hps hb h
  obtain ⟨p, ps, hproductions⟩ := List.exists_cons_of_ne_nil hps.nonempty
  refine ⟨(errors_eq_nil_of_parse h).1, ⟨p, by rw [hproductions]; rfl, ?_⟩, hderivation, htokens,
    Tree.spanned_of_located hlocated (htokens ▸ horder)⟩
  rw [hsymbol, hproductions]
  rfl

/-- A text that a grammar can be read from is that of the grammar. -/
theorem ofText_eq_ok {text : String} (h : (ofText text).isOk = true) :
    ofText text = .ok ((ofText text).toOption.getD default) := by
  cases hg : ofText text with
  | error e => simp [hg, Except.isOk, Except.toBool] at h
  | ok g => rfl

/-- Sums, which nest to the left. -/
def sumText : String := "S -> S + str\nS -> str"

/-- The tokens of `a + b`. -/
def sumTokens : List Token :=
  [⟨.string "a" .word, .between 0 1⟩, ⟨.symbol .plus, .between 2 3⟩,
    ⟨.string "b" .word, .between 4 5⟩]

theorem inOrder_sumTokens : InOrder sumTokens := ⟨by decide, by decide⟩

/-- The grammar of sums. -/
def sums : Grammar := (ofText sumText).toOption.getD default

theorem ofText_sumText : ofText sumText = .ok sums := ofText_eq_ok (by decide)

theorem parse_sound_sum : ∃ tree, (sums.parse sumTokens).result = some tree ∧
    tree.tokens = sumTokens ∧ tree.Spanned := by
  have hparsed : (sums.parse sumTokens).result.isSome := by decide
  obtain ⟨tree, htree⟩ := Option.isSome_iff_exists.mp hparsed
  exact ⟨tree, htree, (parse_sound ofText_sumText inOrder_sumTokens htree).2.2.2⟩

end Grammar

end PixQuery
