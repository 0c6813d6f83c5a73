import Mathlib.Data.List.Sublists
import PixQuery.Proofs.Grammar.Completeness

/-!
# How long parsing a sentence takes

A derivation that passes through one nonterminal twice, with nothing but nodes of one child in
between, can be cut short there. What is left when all such detours are cut out is no larger than
its leaves allow. As a sentence has one derivation only, nothing was there to be cut out, and the
steps of the parser are enough for every sentence.

Results:
* `exists_trimmed`: every derivation can be cut down to a bounded size, with the same leaves.
* `size_le`: the only derivation of a sentence has that size.
* `parse_of_derives`: the parser returns the derivation of its tokens.
* `parse_complete`: every sentence is parsed to its derivation, and a grammar with two derivations
  of one sentence is refused.
-/

namespace PixQuery

open Grammar (WellDefined Built startKey numbered? keyOf nonterminals)

namespace Derivation

variable {ps : List Grammar.Production}

/-! ## Cutting detours out -/

/-- The keys from the root downwards, as long as there is only one child. -/
def spine (ps : List Grammar.Production) : Derivation → List String
  | leaf _ => []
  | node n [child] => keyOf ps n :: spine ps child
  | node n _ => [keyOf ps n]

/-- The spine has no key twice, and its length and the leaves bound the size. -/
structure Trimmed (ps : List Grammar.Production) (d : Derivation) : Prop where
  valid : d.IsValid ps
  nodup : (d.spine ps).Nodup
  size_le : d.size + 2 * (nonterminals ps).length ≤
    (d.spine ps).length + (2 * (nonterminals ps).length + 1) * d.leaves.length

theorem spine_subset : ∀ {d : Derivation}, d.IsValid ps → d.spine ps ⊆ nonterminals ps
  | leaf _, _ => List.nil_subset _
  | node n [], h => absurd h.1.choose_spec.2.symm (Grammar.Production.body_ne_nil _)
  | node n [child], h => by
    obtain ⟨⟨p, hp, _⟩, hchild, _⟩ := h
    rw [spine, Grammar.keyOf_of_numbered hp, List.cons_subset]
    exact ⟨Grammar.mem_nonterminals.mpr ⟨p, Grammar.mem_of_numbered hp, rfl⟩, spine_subset hchild⟩
  | node n (_ :: _ :: _), h => by
    obtain ⟨⟨p, hp, _⟩, _⟩ := h
    rw [spine, Grammar.keyOf_of_numbered hp, List.cons_subset]
    · exact ⟨Grammar.mem_nonterminals.mpr ⟨p, Grammar.mem_of_numbered hp, rfl⟩, List.nil_subset _⟩
    · simp

/-- A spine without a key twice is no longer than there are keys. -/
theorem Trimmed.length_spine_le {d : Derivation} (h : Trimmed ps d) :
    (d.spine ps).length ≤ (nonterminals ps).length :=
  (List.subperm_of_subset h.nodup (spine_subset h.valid)).length_le

theorem leaves_node_singleton (n : Nat) (d : Derivation) : (node n [d]).leaves = d.leaves := by
  rw [leaves, leavesOf, leavesOf, List.append_nil]

/-- A trimmed derivation of a key on its spine, with the same leaves. -/
theorem Trimmed.exists_of_mem_spine {a : String} : ∀ {d : Derivation}, Trimmed ps d →
    a ∈ d.spine ps → ∃ e, Trimmed ps e ∧ e.symbol ps = .nonterminal a ∧ e.leaves = d.leaves
  | leaf _, _, ha => absurd ha List.not_mem_nil
  | node n [], h, _ => absurd h.valid.1.choose_spec.2.symm (Grammar.Production.body_ne_nil _)
  | node n [child], h, ha => by
    rw [spine, List.mem_cons] at ha
    rcases ha with rfl | ha
    · exact ⟨_, h, rfl, rfl⟩
    · have hnodup := h.nodup
      have hsize := h.size_le
      rw [spine, List.nodup_cons] at hnodup
      rw [spine, List.length_cons, leaves_node_singleton, size, sizeOf, sizeOf] at hsize
      have hchild : Trimmed ps child := ⟨h.valid.2.1, hnodup.2, by omega⟩
      obtain ⟨e, he, hsymbol, hleaves⟩ := hchild.exists_of_mem_spine ha
      exact ⟨e, he, hsymbol, by rw [hleaves, leaves_node_singleton]⟩
  | node n (_ :: _ :: _), h, ha => by
    have heq : a = keyOf ps n := by simpa [spine] using ha
    exact ⟨_, h, by rw [symbol, heq], rfl⟩

/-- A node over one trimmed child: a detour when its key is on the spine of the child. -/
theorem exists_trimmed_over {n : Nat} {p : Grammar.Production} {d : Derivation}
    (hp : numbered? ps n = some p) (hbody : [d.symbol ps] = p.body) (hd : Trimmed ps d) :
    ∃ e, Trimmed ps e ∧ e.symbol ps = .nonterminal p.key ∧ e.leaves = d.leaves := by
  by_cases hmem : p.key ∈ d.spine ps
  · exact hd.exists_of_mem_spine hmem
  · refine ⟨node n [d], ⟨⟨⟨p, hp, hbody⟩, hd.valid, trivial⟩, ?_, ?_⟩, symbol_node hp _,
      leaves_node_singleton n d⟩
    · rw [spine, Grammar.keyOf_of_numbered hp]
      exact List.nodup_cons.mpr ⟨hmem, hd.nodup⟩
    · rw [spine, List.length_cons, leaves_node_singleton, size, sizeOf, sizeOf]
      have hsize := hd.size_le
      omega

/-- Some derivations are as small as their leaves allow, whatever their spines are. -/
structure AllTrimmed (ps : List Grammar.Production) (ds : List Derivation) : Prop where
  valid : AllValid ps ds
  size_le : sizeOf ds + (nonterminals ps).length * ds.length ≤
    (2 * (nonterminals ps).length + 1) * (leavesOf ds).length

theorem AllTrimmed.cons {d : Derivation} {ds : List Derivation} (hd : Trimmed ps d)
    (hds : AllTrimmed ps ds) : AllTrimmed ps (d :: ds) := by
  refine ⟨⟨hd.valid, hds.valid⟩, ?_⟩
  have hspine := hd.length_spine_le
  have hsize := hd.size_le
  have hsizes := hds.size_le
  rw [sizeOf, leavesOf, List.length_append, List.length_cons, Nat.mul_add, Nat.mul_add]
  omega

/-- A node over two or more trimmed children. -/
theorem trimmed_node {n : Nat} {p : Grammar.Production} {c d : Derivation} {ds : List Derivation}
    (hp : numbered? ps n = some p) (hbody : (c :: d :: ds).map (symbol ps) = p.body)
    (h : AllTrimmed ps (c :: d :: ds)) : Trimmed ps (node n (c :: d :: ds)) := by
  have hspine : (node n (c :: d :: ds)).spine ps = [keyOf ps n] := by
    rw [spine]
    simp
  have hsizes := h.size_le
  refine ⟨⟨⟨p, hp, hbody⟩, h.valid⟩, by rw [hspine]; exact List.nodup_singleton _, ?_⟩
  have htwo : (nonterminals ps).length * 2 ≤ (nonterminals ps).length * (c :: d :: ds).length :=
    Nat.mul_le_mul_left _ (by simp)
  rw [hspine, size, leaves, List.length_singleton]
  omega

mutual

/-- **Every derivation can be trimmed** and keeps its symbol and its leaves. -/
theorem exists_trimmed : ∀ {d : Derivation}, d.IsValid ps →
    ∃ e, Trimmed ps e ∧ e.symbol ps = d.symbol ps ∧ e.leaves = d.leaves
  | leaf t, _ => by
    refine ⟨leaf t, ⟨trivial, List.nodup_nil, ?_⟩, rfl, rfl⟩
    rw [spine, size, leaves, List.length_singleton, List.length_nil]
    omega
  | node n children, ⟨⟨p, hp, hbody⟩, hchildren⟩ => by
    obtain ⟨es, hes, hsymbols, hleaves, hone⟩ := exists_allTrimmed hchildren
    rw [← hsymbols] at hbody
    rw [symbol_node hp, leaves, ← hleaves]
    match es, hes, hbody, hone with
    | [], _, hbody, _ => exact absurd hbody.symm p.body_ne_nil
    | [e], _, hbody, hone =>
      obtain ⟨e', he', hsymbol, hleaves'⟩ := exists_trimmed_over hp hbody (hone e rfl)
      exact ⟨e', he', hsymbol, by rw [hleaves', leavesOf, leavesOf, List.append_nil]⟩
    | c :: d :: ds, hes, hbody, _ =>
      exact ⟨_, trimmed_node hp hbody hes, symbol_node hp _, rfl⟩

/-- All of some derivations can be trimmed; one alone keeps its spine. -/
theorem exists_allTrimmed : ∀ {ds : List Derivation}, AllValid ps ds →
    ∃ es, AllTrimmed ps es ∧ es.map (symbol ps) = ds.map (symbol ps) ∧
      leavesOf es = leavesOf ds ∧ ∀ e, es = [e] → Trimmed ps e
  | [], _ => ⟨[], ⟨trivial, by simp [sizeOf]⟩, rfl, rfl, by simp⟩
  | d :: ds, h => by
    obtain ⟨e, he, hsymbol, hleaves⟩ := exists_trimmed h.1
    obtain ⟨es, hes, hsymbols, hleavesOf, _⟩ := exists_allTrimmed h.2
    refine ⟨e :: es, hes.cons he, by simp [hsymbol, hsymbols], by
      rw [leavesOf, leavesOf, hleaves, hleavesOf], fun e' heq => ?_⟩
    rw [← (List.cons.inj heq).1]
    exact he

end

theorem length_nonterminals_le : (nonterminals ps).length ≤ ps.length := by
  have hsub : nonterminals ps ⊆ ps.map Grammar.Production.key := fun a ha => by
    obtain ⟨p, hp, rfl⟩ := Grammar.mem_nonterminals.mp ha
    exact List.mem_map_of_mem hp
  have hle := (List.subperm_of_subset (Grammar.nodup_eraseDups _) hsub).length_le
  rwa [List.length_map] at hle

/-- **A derivation of a sentence** is no larger than its leaves allow. -/
theorem size_le (hps : WellDefined ps) (hb : ∃ t, Grammar.buildTable ps = .ok t) {d : Derivation}
    (hd : d.Derives ps) : d.size ≤ (2 * ps.length + 1) * d.leaves.length := by
  obtain ⟨e, he, hsymbol, hleaves⟩ := exists_trimmed hd.valid
  obtain rfl := derivation_unique hps hb hd ⟨he.valid, hsymbol.trans hd.start⟩ hleaves.symm
  have hspine := he.length_spine_le
  have hsize := he.size_le
  calc d.size ≤ (2 * (nonterminals ps).length + 1) * d.leaves.length := by omega
    _ ≤ (2 * ps.length + 1) * d.leaves.length :=
      Nat.mul_le_mul_right _ (by have := @length_nonterminals_le ps; omega)

end Derivation

/-! ## Parsing a sentence -/

namespace Grammar

variable {g : Grammar} {tokens : List Token}

theorem buildTable_of_ofProductions {ps : List Production} (h : ofProductions ps = .ok g) :
    g.productions = ps ∧ buildTable ps = .ok g.table := by
  unfold ofProductions at h
  cases ht : buildTable ps with
  | error e => simp [ht, Except.map] at h
  | ok t =>
    simp only [ht, Except.map, Except.ok.injEq] at h
    subst h
    exact ⟨rfl, rfl⟩

theorem buildTable_of_ofText {text : String} (h : ofText text = .ok g) :
    buildTable g.productions = .ok g.table := by
  unfold ofText at h
  split at h
  · simp at h
  · obtain ⟨hg, ht⟩ := buildTable_of_ofProductions h
    rw [hg, ht]

/-- Productions without a table have conflicts. -/
theorem exists_conflicts {ps : List Production} (h : ∀ t, buildTable ps ≠ .ok t) :
    ∃ first others, buildTable ps = .error (.conflicts first others) := by
  unfold buildTable at h ⊢
  simp only at h ⊢
  split
  · exact ⟨_, _, rfl⟩
  · rename_i hnone
    rw [hnone] at h
    exact absurd rfl (h _)

/-- The steps that the parser may make are enough for a derivation of its tokens. -/
theorem size_lt_fuelFor {d : Derivation}
    (h : d.size ≤ (2 * g.productions.length + 1) * tokens.length) :
    d.size < Parser.fuelFor g tokens := by
  have h1 : (2 * g.productions.length + 1) * tokens.length ≤
      (2 * tokens.length) * (g.productions.length + 2) := by
    rw [Nat.add_mul, Nat.mul_add, Nat.mul_right_comm, Nat.mul_comm (2 * tokens.length)]
    have h2 : 2 * tokens.length * g.productions.length =
        g.productions.length * (2 * tokens.length) := Nat.mul_comm _ _
    omega
  unfold Parser.fuelFor
  rw [Nat.add_mul]
  omega

/-- **The parser returns the derivation** of its tokens, and nothing is found to be wrong. -/
theorem parse_of_derives (hps : WellDefined g.productions)
    (hb : buildTable g.productions = .ok g.table) {d : Derivation} (hd : d.Derives g.productions)
    (htokens : tokens.map Token.terminal = d.leaves) :
    ∃ tree, g.parse tokens = ⟨some tree, [], []⟩ ∧ tree.derivation = d := by
  obtain ⟨q, hmoves, haccept⟩ :=
    Derivation.exists_accepted hps rfl (built_of_buildTable hb) hd
  obtain ⟨c, events, hc, hfaults, hrun⟩ :=
    Bare.run_of_moves (Parser.stopOf tokens) hmoves (c := ⟨[], tokens⟩) (by
      rw [Bare.ofConfiguration, htokens]
      rfl)
  have hlen : tokens.length = d.leaves.length := by rw [← htokens, List.length_map]
  have hfuel : d.size < Parser.fuelFor g tokens :=
    size_lt_fuelFor (hlen ▸ Derivation.size_le hps ⟨_, hb⟩ hd)
  obtain ⟨fuel, hfuel⟩ := Nat.exists_eq_add_of_lt hfuel
  -- after the moves the tree is alone on the stack, and the next step accepts it
  obtain ⟨stack, rest⟩ := c
  simp only [Bare.ofConfiguration, Bare.mk.injEq, List.map_eq_nil_iff] at hc
  obtain ⟨hstack, rfl⟩ := hc
  obtain ⟨f, rfl, hf⟩ := List.map_eq_singleton_iff.mp hstack
  simp only [Bare.ofFrame, Entry.mk.injEq] at hf
  have hnode : f.tree.isNode = true := by
    cases htree : f.tree with
    | leaf t =>
      have hstart := hd.start
      rw [← hf.2, htree] at hstart
      simp [Tree.derivation, Derivation.symbol] at hstart
    | node => rfl
  have hstep : Parser.step g (Parser.stopOf tokens) ⟨[f], []⟩ =
      ⟨some .accept, .stop (some f.tree)⟩ := by
    have hstate : Parser.top [f] = q := hf.1
    have hahead : Parser.lookahead [] = eof := rfl
    simp only [Parser.step, hstate, hahead, haccept]
    simp [Parser.accepted, hnode]
  have hne : tokens ≠ [] := by
    rintro rfl
    obtain ⟨t, ts, hleaves, _⟩ := Derivation.exists_first hd.valid
    rw [hleaves] at htokens
    cases htokens
  have htrace : Parser.trace g tokens = (events ++ [.accept], some f.tree) := by
    rw [Parser.trace, if_neg (by simpa using hne), hfuel, Nat.add_assoc, hrun]
    simp only [Parser.run, hstep]
    rfl
  refine ⟨f.tree, ?_, hf.2⟩
  rw [parse, htrace]
  simp only [List.filterMap_append, hfaults]
  rfl

/-- **The parser is complete, and no sentence is ambiguous.** In a grammar that was built, tokens
whose terminals are the leaves of a derivation are parsed to that derivation over these tokens.
Productions with two derivations of the same leaves are refused with a conflict. -/
theorem parse_complete (text : String) :
    (∀ g, ofText text = .ok g → ∀ (d : Derivation) (tokens : List Token),
      d.Derives g.productions → tokens.map Token.terminal = d.leaves →
        ∃ tree, g.parse tokens = ⟨some tree, [], []⟩ ∧ tree.derivation = d ∧
          tree.tokens = tokens) ∧
    (∀ ps, readDefinition text = .ok ps → ∀ d e : Derivation, d.Derives ps → e.Derives ps →
      d.leaves = e.leaves → d ≠ e →
        ∃ first others, ofText text = .error (.conflicts first others)) := by
  constructor
  · intro g hg d tokens hd htokens
    obtain ⟨hps, hb⟩ := built_of_ofText hg
    obtain ⟨tree, hparse, htree⟩ := parse_of_derives hps (buildTable_of_ofText hg) hd htokens
    have hresult : (g.parse tokens).result = some tree := by rw [hparse]
    exact ⟨tree, hparse, htree, (derivation_of_parse hps hb hresult).2.2.1⟩
  · intro ps hread d e hd he hleaves hne
    have hps := wellDefined_of_readDefinition hread
    obtain ⟨first, others, hconflicts⟩ := @exists_conflicts ps fun t ht =>
      hne (Derivation.derivation_unique hps ⟨t, ht⟩ hd he hleaves)
    refine ⟨first, others, ?_⟩
    simp only [ofText, hread, ofProductions, hconflicts, Except.map]

/-- The derivation of `a + b` as a sum. -/
def sumDerivation : Derivation := .node 1 [.node 2 [.leaf "str"], .leaf "+", .leaf "str"]

theorem derives_sumDerivation : sumDerivation.Derives sums.productions where
  valid := ⟨⟨_, rfl, by decide⟩, ⟨⟨_, rfl, by decide⟩, trivial, trivial⟩, trivial, trivial, trivial⟩
  start := by decide

/-- Sums that may nest to either side. -/
def looseText : String := "S -> S + S\nS -> str"

/-- The productions of `looseText`. -/
def looseProductions : List Production :=
  [⟨"S", .nonterminal "S", [.terminal "+", .nonterminal "S"]⟩, ⟨"S", .terminal "str", []⟩]

theorem readDefinition_looseText : readDefinition looseText = .ok looseProductions := by
  decide

/-- A sum of three that nests to the left, and one that nests to the right. -/
def nestedLeft : Derivation :=
  let a := Derivation.node 2 [.leaf "str"]
  .node 1 [.node 1 [a, .leaf "+", a], .leaf "+", a]

@[inherit_doc nestedLeft]
def nestedRight : Derivation :=
  let a := Derivation.node 2 [.leaf "str"]
  .node 1 [a, .leaf "+", .node 1 [a, .leaf "+", a]]

theorem derives_nestedLeft : nestedLeft.Derives looseProductions where
  valid := by simp [nestedLeft, Derivation.IsValid, Derivation.AllValid, looseProductions,
    numbered?, Derivation.symbol, keyOf, Production.body]
  start := by decide

theorem derives_nestedRight : nestedRight.Derives looseProductions where
  valid := by simp [nestedRight, Derivation.IsValid, Derivation.AllValid, looseProductions,
    numbered?, Derivation.symbol, keyOf, Production.body]
  start := by decide

theorem parse_complete_sum :
    (∃ tree, sums.parse sumTokens = ⟨some tree, [], []⟩ ∧ tree.derivation = sumDerivation ∧
      tree.tokens = sumTokens) ∧
    ∃ first others, ofText looseText = .error (.conflicts first others) := by
  constructor
  · exact (parse_complete sumText).1 sums ofText_sumText sumDerivation sumTokens
      derives_sumDerivation (by decide)
  · exact (parse_complete looseText).2 looseProductions readDefinition_looseText nestedLeft
      nestedRight derives_nestedLeft derives_nestedRight rfl (by simp [nestedLeft, nestedRight])

end Grammar

end PixQuery
