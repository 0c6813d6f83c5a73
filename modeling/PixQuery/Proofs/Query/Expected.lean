import PixQuery.Proofs.Grammar.Expected
import PixQuery.Proofs.Query.Grammar

/-!
# The first error of a query hides nothing

The parser applies productions before it looks whether the token can be read at all, so it may stop
in a state that it would not have come to with another token. In the grammar of the query language
the productions that compete with a token are of keys behind which the same tokens can stand
everywhere, whatever the key is a part of. The kernel checks this on the productions.

Results:
* `Query.isForthright_productions`: the grammar of the query language is without reserve.
* `Query.mem_expected_of_beginsSentence`: the first error expects every token with which those
  before it begin a query, and the end when they are one.
-/

namespace PixQuery.Query

open PixQuery.Grammar (BeginsSentence IsSentence IsAlways terminalsOf)
open PixQuery.Parser (StandsInFront IsForthright)

/-- What can stand behind some nonterminals of the query language wherever they stand. Names are
left out: what stands behind one depends on what it is the name of. -/
def always : List (String × String) :=
  pairsOf
    [(["SEQUENCE", "SEQUENCE_ITEM", "ELEMENT"], behindElement),
      (["ELEMENT_ITEM", "SFP", "PREDICATIVE", "RANGE"], behindRelation),
      (["VALUE_LIST", "VALUE"], "," :: behindRelation),
      (["VALUE_PREFIX"], ["str"]),
      (["SUBJECT"], behindSubject),
      (["COLLECTION_ITEM"], [",", "\x7d"])]

theorem begins_subset : begins ⊆ Grammar.firstPairs productions := by decide +kernel

theorem isAlways_always : IsAlways productions begins always := by decide +kernel

/-- The last symbol of any other production stands in front of nothing. -/
theorem mem_always_of_standsInFront : ∀ p ∈ productions,
    (∃ x ∈ p.body.getLast?, StandsInFront productions x) →
      ∀ pair ∈ follows, pair.1 = p.key → pair ∈ always := by
  decide +kernel

/-- **The grammar of the query language is without reserve.** -/
theorem isForthright_productions : IsForthright productions always :=
  Parser.isForthright_of_walk wellDefined_productions (productions_grammar ▸ productive_grammar)
    walk_outlines begins_subset followPairs_productions isAlways_always mem_always_of_standsInFront

/-- **The first error of a query hides no token that is right.** Whatever tokens are parsed, their
first error is behind some of them: at the first token with which they do not begin a query any
more, or at the end. It expects every terminal with which the tokens before it begin a query, and
the end when they are a query themselves. -/
theorem mem_expected_of_beginsSentence (tokens : List Token) {fault : SyntaxFault}
    (hfault : (grammar.parse tokens).errors.head? = some fault) :
    ∃ i, Grammar.IsBehind grammar.productions tokens i fault ∧
      (∀ t, BeginsSentence grammar.productions (terminalsOf (tokens.take i) ++ [t]) →
        t ∈ fault.expected) ∧
      (IsSentence grammar.productions (terminalsOf (tokens.take i)) →
        Grammar.eof ∈ fault.expected) := by
  obtain ⟨i, hbehind, hexpected⟩ := Grammar.mem_expected_of_goesOn isBuilt_grammar
    productive_grammar (productions_grammar ▸ isForthright_productions) hfault
  exact ⟨i, hbehind, fun t ht => hexpected t ht.goesOn, fun h => hexpected _ h.goesOn⟩

/-- What ends the nonterminals of the query language. -/
def ends : List (String × String) :=
  pairsOf
    [(["STRING", "SUBJECT", "VALUE_LIST", "VALUE", "COLLECTION_ITEM"], ["str"]),
      (["ELEMENT_PREFIX"], ["@", "#", "$"]),
      (["FAMILY"], [":", ">", ">=", "<", "<=", "~"]),
      (["UNARY_FAMILY"], ["~+", "~-"]),
      (["VALUE_PREFIX"], ["+", "-", "^"]),
      (["RANGE_BEGIN"], ["[", "("]),
      (["RANGE_END"], ["]", ")"]),
      (["RANGE"], ["str", "]", ")"]),
      (["COLLECTION"], ["\x7d"]),
      (["PREDICATIVE"], ["str", "]", ")", "\x7d"]),
      (["SEQUENCE", "SEQUENCE_ITEM", "ELEMENT", "ELEMENT_ITEM", "SFP"],
        ["str", "]", ")", "\x7d", "~+", "~-"])]

theorem ends_closed : ∀ p ∈ productions, ∀ x ∈ p.body.getLast?, ∀ t ∈ Grammar.firstOf ends x,
    (p.key, t) ∈ ends := by
  decide +kernel

/-- The tokens of `score>3`. -/
def scoreTokens : List Token :=
  [⟨.string "score" .word, .between 0 5⟩, ⟨.symbol .gt, .between 5 6⟩,
    ⟨.string "3" .word, .between 6 7⟩]

/-- The tree of `score>3`. -/
def scoreTree : Tree :=
  match scoreTokens.map Tree.leaf with
  | [score, gt, three] =>
    let value := nodeOf 25 "PREDICATIVE" [nodeOf 30 "VALUE_LIST" [nodeOf 32 "VALUE"
      [nodeOf 28 "STRING" [three]]]]
    let filter := nodeOf 17 "SFP" [nodeOf 18 "SUBJECT" [nodeOf 28 "STRING" [score]],
      nodeOf 20 "FAMILY" [gt], value]
    nodeOf 1 "SEQUENCE" [nodeOf 4 "SEQUENCE_ITEM" [nodeOf 8 "ELEMENT"
      [nodeOf 13 "ELEMENT_ITEM" [filter]]]]
  | _ => default

theorem derived_scoreTree : Derived (.nonterminal "SEQUENCE") scoreTokens scoreTree where
  derivation := by decide
  located := by simp [scoreTree, scoreTokens, nodeOf, Tree.Located, Tree.AllLocated]
  tokens := rfl
  symbol := rfl

/-- The tokens of `score>`. -/
def openTokens : List Token := scoreTokens.take 2

theorem beginsSentence_open : BeginsSentence grammar.productions (terminalsOf openTokens) :=
  ⟨["str"], _, derived_scoreTree.derives, derived_scoreTree.leaves⟩

theorem not_isSentence_open : ¬ IsSentence grammar.productions (terminalsOf openTokens) := by
  rintro ⟨d, hd, hleaves⟩
  rw [productions_grammar] at hd
  obtain ⟨ts, t, hlast, ht⟩ := Derivation.exists_last ends_closed hd.valid
  have hsplit : ts ++ [t] = ["str"] ++ [">"] := hlast.symm.trans hleaves
  obtain rfl : t = ">" := List.singleton_inj.mp (List.append_inj' hsplit rfl).2
  rw [hd.start] at ht
  exact absurd ht (by decide)

/-- What `score>` begins is no query yet. The error at its end expects a string, with which it would
be one, and all else with which it goes on. -/
theorem mem_expected_open : ∃ expected,
    (grammar.parse openTokens).errors.head? = some (.unexpectedEnd expected 6) ∧
      "str" ∈ expected ∧
      ∀ t, BeginsSentence grammar.productions ["str", ">", t] → t ∈ expected := by
  rcases Grammar.first_error isBuilt_grammar productive_grammar (List.cons_ne_nil _ _)
    not_isSentence_open with ⟨_, _, _, _, hleaves, _⟩ | ⟨_, expected, hfault⟩
  · exact absurd beginsSentence_open hleaves.not_beginsSentence
  · obtain ⟨_, ⟨rfl, _⟩, hexpected, _⟩ := mem_expected_of_beginsSentence openTokens hfault
    refine ⟨expected, hfault, hexpected "str" ?_, hexpected⟩
    exact ⟨[], _, derived_scoreTree.derives, derived_scoreTree.leaves⟩

end PixQuery.Query
