import PixQuery.Proofs.Grammar.Conflicts
import PixQuery.Proofs.Grammar.Definition
import PixQuery.Proofs.Grammar.Steps
import PixQuery.Proofs.Grammar.Viability
import PixQuery.Query.Grammar

/-!
# The grammar of the query language has no conflicts

Evaluating its table would be slow. The kernel checks two lists of pairs against the rules of first
and follow instead, and walks once through item sets of outlines, where comparing names is fast.

Results:
* `Query.ofProductions_productions`: the productions of the query language give its grammar.
* `Query.isBuilt_grammar`, `Query.productive_grammar`: it is built, and every nonterminal stands for
  some tokens.
* `Query.parse_eq_of_derived`: the parser returns any located derivation of its tokens.
* `Query.derived_of_parse`: it returns nothing else.
-/

namespace PixQuery.Query

open PixQuery.Grammar (WellDefined Built)

/-! ## First and follow -/

/-- Each of some nonterminals with each of some terminals. -/
def pairsOf (rows : List (List String × List String)) : List (String × String) :=
  rows.flatMap fun row => row.1.flatMap fun a => row.2.map fun t => (a, t)

/-- What begins the nonterminals of the query language. -/
def begins : List (String × String) :=
  pairsOf
    [(["SEQUENCE", "SEQUENCE_ITEM"], ["^", "-", "@", "#", "$", "str"]),
      (["ELEMENT"], ["@", "#", "$", "str"]),
      (["ELEMENT_PREFIX"], ["@", "#", "$"]),
      (["ELEMENT_ITEM", "SFP", "SUBJECT", "STRING", "COLLECTION_ITEM"], ["str"]),
      (["FAMILY"], [":", ">", ">=", "<", "<=", "~"]),
      (["UNARY_FAMILY"], ["~+", "~-"]),
      (["PREDICATIVE"], ["str", "+", "-", "^", "\x7b", "[", "("]),
      (["VALUE_LIST", "VALUE"], ["str", "+", "-", "^"]),
      (["VALUE_PREFIX"], ["+", "-", "^"]),
      (["COLLECTION"], ["\x7b"]),
      (["RANGE"], ["str", "[", "("]),
      (["RANGE_BEGIN"], ["[", "("]),
      (["RANGE_END"], ["]", ")"])]

/-- What stands behind an element. -/
def behindElement : List String := [Grammar.eof, "&", "^", "-", "@", "#", "$", "str"]

/-- What stands behind a relation. -/
def behindRelation : List String := ["|", "/"] ++ behindElement

/-- What stands behind a subject. -/
def behindSubject : List String :=
  [":", ">", ">=", "<", "<=", "~", "~+", "~-"] ++ behindRelation

/-- What stands behind the nonterminals of the query language. -/
def follows : List (String × String) :=
  pairsOf
    [(["SEQUENCE", "SEQUENCE_ITEM", "ELEMENT"], behindElement),
      (["ELEMENT_PREFIX", "VALUE_PREFIX", "RANGE_BEGIN"], ["str"]),
      (["ELEMENT_ITEM", "SFP", "UNARY_FAMILY", "PREDICATIVE", "COLLECTION", "RANGE", "RANGE_END"],
        behindRelation),
      (["VALUE_LIST", "VALUE"], "," :: behindRelation),
      (["SUBJECT"], behindSubject),
      (["STRING"], [".", "..", ",", "]", ")", "\x7d"] ++ behindSubject),
      (["FAMILY"], ["str", "+", "-", "^", "\x7b", "[", "("]),
      (["COLLECTION_ITEM"], [",", "\x7d"])]

theorem firstStep_begins : Grammar.firstStep productions begins ⊆ begins := by decide +kernel

theorem followStep_follows : Grammar.followStep productions begins follows ⊆ follows := by
  decide +kernel

theorem firstPairs_productions : Grammar.firstPairs productions ⊆ begins :=
  Grammar.firstPairs_subset firstStep_begins

theorem start_follows : (Grammar.startKey productions, Grammar.eof) ∈ follows := by decide

theorem followPairs_productions : Grammar.followPairs productions ⊆ follows :=
  Grammar.followPairs_subset firstPairs_productions start_follows followStep_follows

/-! ## The table -/

/-- The names in the productions, and that of the end. -/
def names : List String :=
  (productions.map Grammar.Production.key).eraseDups ++
    ["str", ".", ",", "|", "/", "&", "^", "-", "+", "@", "#", "$", ":", ">", ">=", "<", "<=", "~",
      "~+", "~-", "..", "\x7b", "\x7d", "[", "(", "]", ")", Grammar.eof]

/-- The productions with numbers for the names. -/
def outlines : List Grammar.Outline := Grammar.outlines names productions

/-- What stands behind the nonterminals, with numbers for the names. -/
def outlinePairs : List (Nat × Nat) := Grammar.outlinePairs names follows

theorem walk_outlines :
    Grammar.walk (Grammar.Outline.kernelsAfter? outlines outlinePairs) 100 [[⟨0, 0⟩]] [[⟨0, 0⟩]] =
      true := by
  decide +kernel

/-- **No two actions compete** for a cell of the table of the query language. -/
theorem ofProductions_productions : Grammar.ofProductions productions = .ok grammar := by
  obtain ⟨g, hg⟩ := Grammar.exists_ofProductions followPairs_productions walk_outlines
  have hgrammar : grammar = g := by
    rw [grammar, hg]
    rfl
  rw [hgrammar, hg]

theorem productions_grammar : grammar.productions = productions :=
  (Grammar.buildTable_of_ofProductions ofProductions_productions).1

theorem wellDefined_productions : WellDefined productions :=
  Grammar.wellDefined_productionsOf (by decide)

theorem rules_isPlain : ∀ r ∈ rules, r.IsPlain := by decide +kernel

/-- **The grammar is that of a definition text.** -/
theorem ofText_definitionOf : Grammar.ofText (Grammar.definitionOf rules) = .ok grammar := by
  rw [Grammar.ofText, Grammar.readDefinition_definitionOf (by simp [rules]) rules_isPlain]
  exact ofProductions_productions

theorem isBuilt_grammar : grammar.IsBuilt where
  wellDefined := productions_grammar ▸ wellDefined_productions
  table := (Grammar.buildTable_of_ofProductions ofProductions_productions).2 ▸
    congrArg Grammar.buildTable productions_grammar
  eof_not_mem := productions_grammar ▸ Grammar.terminal_not_mem_productionsOf (by decide)

/-- **Every nonterminal** of the query language stands for some tokens. -/
theorem productive_grammar : Grammar.Productive grammar.productions := by
  have hgrounded : Grammar.isGrounded productions
      ["SEQUENCE", "SEQUENCE_ITEM", "ELEMENT", "ELEMENT_PREFIX", "ELEMENT_ITEM", "SFP", "SUBJECT",
        "FAMILY", "UNARY_FAMILY", "PREDICATIVE", "VALUE_LIST", "VALUE", "VALUE_PREFIX",
        "COLLECTION", "COLLECTION_ITEM", "RANGE", "STRING", "RANGE_BEGIN", "RANGE_END"] = true := by
    decide +kernel
  rw [productions_grammar]
  exact Grammar.productive_of_isGrounded hgrounded (by decide)

/-- A located derivation of tokens from a symbol, read with the productions of the query
language. -/
structure Derived (x : Grammar.Sym) (tokens : List Token) (t : Tree) : Prop where
  derivation : t.IsDerivation productions
  located : t.Located
  tokens : t.tokens = tokens
  symbol : t.symbol = x

theorem Derived.derives {tokens : List Token} {t : Tree}
    (h : Derived (.nonterminal "SEQUENCE") tokens t) :
      t.derivation.Derives grammar.productions := by
  have hderivation := productions_grammar ▸ h.derivation
  refine ⟨Tree.isValid_derivation hderivation, ?_⟩
  rw [Tree.symbol_derivation hderivation, h.symbol, productions_grammar]
  rfl

theorem Derived.leaves {x : Grammar.Sym} {tokens : List Token} {t : Tree} (h : Derived x tokens t) :
    t.derivation.leaves = tokens.map Token.terminal := by
  rw [Tree.leaves_derivation, h.tokens]

/-- **The parser returns any located derivation** of its tokens. -/
theorem parse_eq_of_derived {tokens : List Token} {t : Tree}
    (h : Derived (.nonterminal "SEQUENCE") tokens t) : grammar.parse tokens = ⟨some t, [], []⟩ := by
  obtain ⟨t', hparse, ht'⟩ := Grammar.parse_of_derives isBuilt_grammar.wellDefined
    isBuilt_grammar.table h.derives h.leaves.symm
  have hresult : (grammar.parse tokens).result = some t' := by rw [hparse]
  obtain ⟨hd, hl, htokens, _⟩ :=
    Grammar.derivation_of_parse isBuilt_grammar.wellDefined isBuilt_grammar.built hresult
  rw [hparse, Tree.eq_of_derivation hd (productions_grammar ▸ h.derivation) hl h.located ht'
    (htokens.trans h.tokens.symm)]

/-- What the parser returns is a located derivation of its tokens. -/
theorem derived_of_parse {tokens : List Token} {t : Tree}
    (h : (grammar.parse tokens).result = some t) : Derived (.nonterminal "SEQUENCE") tokens t := by
  obtain ⟨hd, hl, htokens, hsymbol⟩ :=
    Grammar.derivation_of_parse isBuilt_grammar.wellDefined isBuilt_grammar.built h
  exact ⟨productions_grammar ▸ hd, hl, htokens, hsymbol.trans (by rw [productions_grammar]; rfl)⟩

/-! ## Building trees -/

/-- Located derivations of rows of tokens from the symbols of a body. -/
inductive DerivedAll : List Grammar.Sym → List Token → List Tree → Prop
  | nil : DerivedAll [] [] []
  | cons {x : Grammar.Sym} {xs : List Grammar.Sym} {tokens rest : List Token} {t : Tree}
      {ts : List Tree} (h : Derived x tokens t) (hs : DerivedAll xs rest ts) :
      DerivedAll (x :: xs) (tokens ++ rest) (t :: ts)

theorem Derived.leaf {t : Token} {name : String} (h : t.terminal = name) :
    Derived (.terminal name) [t] (.leaf t) :=
  ⟨trivial, trivial, rfl, congrArg Grammar.Sym.terminal h⟩

theorem DerivedAll.singleton {x : Grammar.Sym} {tokens : List Token} {t : Tree}
    (h : Derived x tokens t) : DerivedAll [x] tokens [t] :=
  List.append_nil tokens ▸ DerivedAll.cons h .nil

theorem DerivedAll.append {xs ys : List Grammar.Sym} {tokens rest : List Token} {ts us : List Tree}
    (h : DerivedAll xs tokens ts) (h' : DerivedAll ys rest us) :
    DerivedAll (xs ++ ys) (tokens ++ rest) (ts ++ us) := by
  induction h with
  | nil => exact h'
  | cons hd _ ih => exact List.append_assoc .. ▸ DerivedAll.cons hd ih

/-- A terminal in front of a body. -/
theorem DerivedAll.token {t : Token} {name : String} (ht : t.terminal = name)
    {xs : List Grammar.Sym} {rest : List Token} {ts : List Tree} (h : DerivedAll xs rest ts) :
    DerivedAll (.terminal name :: xs) (t :: rest) (.leaf t :: ts) :=
  DerivedAll.cons (.leaf ht) h

theorem DerivedAll.spec {xs : List Grammar.Sym} {tokens : List Token} {ts : List Tree}
    (h : DerivedAll xs tokens ts) : ts.map Tree.symbol = xs ∧
      Tree.AllDerivations productions ts ∧ Tree.AllLocated ts ∧ Tree.tokensOf ts = tokens := by
  induction h with
  | nil => exact ⟨rfl, trivial, trivial, rfl⟩
  | cons hd _ ih =>
    obtain ⟨hsymbols, hderivations, hlocated, htokens⟩ := ih
    exact ⟨by rw [List.map_cons, hd.symbol, hsymbols], ⟨hd.derivation, hderivations⟩,
      ⟨hd.located, hlocated⟩, by rw [Tree.tokensOf, hd.tokens, htokens]⟩

/-- The node of a production over some children. -/
def nodeOf (n : Nat) (key : String) (children : List Tree) : Tree :=
  .node n key children (Parser.childrenRange 0 children)

/-- A production over derivations of its body. -/
theorem Derived.node {n : Nat} {p : Grammar.Production}
    (hp : Grammar.numbered? productions n = some p) {tokens : List Token} {ts : List Tree}
    (h : DerivedAll p.body tokens ts) :
      Derived (.nonterminal p.key) tokens (nodeOf n p.key ts) := by
  obtain ⟨hsymbols, hderivations, hlocated, htokens⟩ := h.spec
  have hne : ts ≠ [] := by
    rintro rfl
    exact p.body_ne_nil hsymbols.symm
  exact ⟨⟨⟨p, hp, rfl, hsymbols⟩, hderivations⟩, ⟨⟨hne, rfl⟩, hlocated⟩, htokens, rfl⟩

end PixQuery.Query
