import PixQuery.Proofs.Grammar.Trimming

/-!
# What a step of the parser can do

From a stack that spells a path of the automaton a step reads a token, applies a production that is
complete on top of the stack, accepts the tree that is alone on it, or meets a fault. Nothing else
happens: no token is read where there is none, each number is that of a production, a table goes on
behind every key, and what is accepted is a node.

Results:
* `isBuilt_of_ofText`: a grammar that was read from a text is built.
* `effect_step`: the four things that a step can do.
* `spells_of_go`: the stack spells a path after every step, recovery among them.
* `carriesOut_of_spells`: what the table says to do can be done.
-/

namespace PixQuery

open Grammar (Leads stateAt? numbered? followPairs Production Built WellDefined)

/-! ## Grammars that were built -/

namespace Grammar

/-- A grammar with the table of its productions, as they are read from a definition: every
nonterminal has a production, and none of them writes the end of the sentence. -/
structure IsBuilt (g : Grammar) : Prop where
  wellDefined : WellDefined g.productions
  table : buildTable g.productions = .ok g.table
  eof_not_mem : ∀ p ∈ g.productions, .terminal eof ∉ p.body

theorem IsBuilt.built {g : Grammar} (h : IsBuilt g) : Built g.productions g.table :=
  built_of_buildTable h.table

theorem terminal_not_mem_productionsOf {rules : List Rule} {name : String}
    (h : ∀ r ∈ rules, name ∉ r.first :: r.others) :
    ∀ p ∈ productionsOf rules, .terminal name ∉ p.body := fun _ hp hmem => by
  obtain ⟨r, hr, hname⟩ := exists_rule_of_terminal hp hmem
  exact h r hr hname

theorem eof_not_mem_of_readDefinition {text : String} {ps : List Production}
    (h : readDefinition text = .ok ps) : ∀ p ∈ ps, .terminal eof ∉ p.body := by
  obtain ⟨rules, _, rfl, hrules⟩ := rules_of_readDefinition h
  refine terminal_not_mem_productionsOf fun r hr hmem => ?_
  obtain ⟨n, l, hread⟩ := exists_readRule_of_mem hrules hr
  exact (words_of_readRule hread).2 (List.mem_cons_of_mem _ hmem)

/-- **A grammar that was read from a text** is built. -/
theorem isBuilt_of_ofText {text : String} {g : Grammar} (h : ofText text = .ok g) : IsBuilt g := by
  refine ⟨(built_of_ofText h).1, buildTable_of_ofText h, ?_⟩
  unfold ofText at h
  split at h
  · cases h
  · rename_i ps hps
    rw [(built_of_ofProductions h).1]
    exact eof_not_mem_of_readDefinition hps

end Grammar

namespace Parser

variable {g : Grammar} {c c' : Configuration} {stop : Nat}

/-! ## The four things that a step can do -/

/-- **What a step does** from a stack that spells a path. -/
inductive Effect (g : Grammar) (stop : Nat) (c : Configuration) : Step → Prop
  | shift {n : Nat} {t : Token} {ts : List Token} (hrest : c.rest = t :: ts)
      (hl : Leads g.productions (top c.stack) (.terminal t.terminal) n) :
      Effect g stop c
        ⟨some (.shift (top c.stack) t n), .go ⟨⟨n, .leaf t⟩ :: c.stack, ts⟩⟩
  | reduce {n m : Nat} {set : Grammar.ItemSet} {p : Production} {range : Span}
      (hset : stateAt? g.productions (top c.stack) = some set)
      (hp : numbered? g.productions n = some p) (hi : ⟨n, p.body.length⟩ ∈ set)
      (hfollow : (p.key, lookahead c.rest) ∈ followPairs g.productions)
      (hl : Leads g.productions (top (c.stack.drop p.body.length)) (.nonterminal p.key) m) :
      Effect g stop c
        ⟨some (.reduce (top c.stack) n p m),
          .go ⟨⟨m, .node n p.key (treesOf (c.stack.take p.body.length)) range⟩ ::
            c.stack.drop p.body.length, c.rest⟩⟩
  | accept {f : Frame} (hstack : c.stack = [f]) (hrest : c.rest = [])
      (hsymbol : f.tree.symbol = .nonterminal (Grammar.startKey g.productions)) :
      Effect g stop c ⟨some .accept, .stop (some f.tree)⟩
  | fault (haction : g.table.action (top c.stack) (lookahead c.rest) = none) :
      Effect g stop c (recovery g stop (top c.stack) c)

/-- No built grammar reads the end of the sentence. -/
theorem not_leads_eof (hg : g.IsBuilt) {k n : Nat} :
    ¬ Leads g.productions k (.terminal Grammar.eof) n := by
  intro hl
  obtain ⟨_, _, i, _, hnext⟩ := Grammar.exists_next_of_leads hl
  rcases Grammar.mem_body_of_next hnext with h | ⟨p, hp, h⟩
  · cases h
  · exact hg.eof_not_mem p hp h

/-- The state below a complete production goes on behind its key. -/
theorem exists_goto {ps : List Production} {stack : List Frame} {set : Grammar.ItemSet} {n : Nat}
    {p : Production} (h : Spells ps stack) (hset : stateAt? ps (top stack) = some set)
    (hp : numbered? ps n = some p) {d : Nat} (hi : ⟨n, d⟩ ∈ set) :
    ∃ m, Leads ps (top (stack.drop d)) (.nonterminal p.key) m := by
  obtain ⟨_, _, _, set', hset', hi'⟩ := unwind d h hset hi
  obtain ⟨i, hi, hnext⟩ := Grammar.exists_waiting hset' hp hi'
  exact Grammar.exists_leads hset' hi hnext

theorem isNode_of_symbol {t : Tree} {a : String} (h : t.symbol = .nonterminal a) :
    t.isNode = true := by
  cases t with
  | leaf t => cases h
  | node => rfl

/-- **A step does one of four things** from a stack that spells a path. -/
theorem effect_step (hg : g.IsBuilt) (h : Spells g.productions c.stack) (stop : Nat) :
    Effect g stop c (step g stop c) := by
  have hperforms := fun a => hg.built.action_eq_some_iff hg.wellDefined
    (k := top c.stack) (u := lookahead c.rest) (a := a)
  unfold step
  simp only
  cases haction : g.table.action (top c.stack) (lookahead c.rest) with
  | none => exact .fault haction
  | some a =>
    cases (hperforms a).mp haction with
    | @shift n hl =>
      cases hrest : c.rest with
      | nil =>
        rw [hrest] at hl
        exact absurd hl (not_leads_eof hg)
      | cons t ts =>
        simp only [shift, hrest]
        rw [hrest, lookahead_cons] at hl
        exact .shift hrest hl
    | @reduce set n p hset hp hi hfollow =>
      obtain ⟨m, hl⟩ := exists_goto h hset hp hi
      have hkey := Grammar.mem_nonterminals.mpr ⟨p, Grammar.mem_of_numbered hp, rfl⟩
      simp only [reduce, Grammar.production?_eq_numbered?, hp,
        (hg.built.goto_eq_some_iff hkey).mpr hl]
      exact .reduce hset hp hi hfollow hl
    | @accept set hset hi heof =>
      obtain ⟨f, hstack, hsymbol⟩ := exists_root h hset hi
      have haccepted : accepted c.stack = some f.tree := by
        rw [hstack]
        exact if_pos (isNode_of_symbol hsymbol)
      simp only [haccepted]
      exact .accept hstack (rest_eq_nil_of_lookahead heof) hsymbol

/-- **Every step leaves a stack that spells a path.** -/
theorem spells_of_go (hg : g.IsBuilt) (h : Spells g.productions c.stack)
    (hgo : (step g stop c).outcome = .go c') : Spells g.productions c'.stack := by
  generalize hs : step g stop c = s at hgo
  have heffect := hs ▸ effect_step hg h stop
  cases heffect with
  | shift hrest hl =>
    obtain rfl := Outcome.go.inj hgo
    exact .cons hl h
  | reduce hset hp hi _ hl =>
    obtain rfl := Outcome.go.inj hgo
    exact .cons hl (unwind _ h hset hi).2.2.1
  | accept => cases hgo
  | fault =>
    simp only [recovery] at hgo
    split at hgo
    · cases hgo
    · obtain rfl := Outcome.go.inj hgo
      exact .nil

/-! ## Every action of a built table can be carried out -/

/-- What the table says to do can be done: there is a token to be read; a number is that of a
production whose body is on the stack, and the table goes on behind its key; and what is accepted is
a node. -/
structure CarriesOut (g : Grammar) (c : Configuration) : Prop where
  shift : ∀ n, g.table.action (top c.stack) (lookahead c.rest) = some (.shift n) → c.rest ≠ []
  reduce : ∀ n, g.table.action (top c.stack) (lookahead c.rest) = some (.reduce n) →
    ∃ p, g.production? n = some p ∧ p.body.length ≤ c.stack.length ∧
      ∃ m, g.table.goto (top (c.stack.drop p.body.length)) p.key = some m
  accept : g.table.action (top c.stack) (lookahead c.rest) = some .accept →
    ∃ tree, accepted c.stack = some tree

theorem carriesOut_of_spells (hg : g.IsBuilt) (h : Spells g.productions c.stack) :
    CarriesOut g c where
  shift n haction hrest := by
    cases (hg.built.action_eq_some_iff hg.wellDefined).mp haction with
    | shift hl =>
      rw [hrest] at hl
      exact not_leads_eof hg hl
  reduce n haction := by
    cases (hg.built.action_eq_some_iff hg.wellDefined).mp haction with
    | @reduce set _ p hset hp hi _ =>
      obtain ⟨m, hl⟩ := exists_goto h hset hp hi
      have hkey := Grammar.mem_nonterminals.mpr ⟨p, Grammar.mem_of_numbered hp, rfl⟩
      exact ⟨p, (Grammar.production?_eq_numbered? g n).trans hp, (unwind _ h hset hi).2.1, m,
        (hg.built.goto_eq_some_iff hkey).mpr hl⟩
  accept haction := by
    cases (hg.built.action_eq_some_iff hg.wellDefined).mp haction with
    | accept hset hi =>
      obtain ⟨f, hstack, hsymbol⟩ := exists_root h hset hi
      exact ⟨f.tree, by rw [hstack]; exact if_pos (isNode_of_symbol hsymbol)⟩

/-- The configurations that the parser comes to from some tokens. -/
inductive Reached (g : Grammar) (stop : Nat) (tokens : List Token) : Configuration → Prop
  | start : Reached g stop tokens ⟨[], tokens⟩
  | step {c c' : Configuration} (h : Reached g stop tokens c)
      (hgo : (step g stop c).outcome = .go c') : Reached g stop tokens c'

theorem Reached.spells (hg : g.IsBuilt) {tokens : List Token} (h : Reached g stop tokens c) :
    Spells g.productions c.stack := by
  induction h with
  | start => exact .nil
  | step _ hgo ih => exact spells_of_go hg ih hgo

end Parser

end PixQuery
