import PixQuery.Proofs.Grammar.FirstFault
import PixQuery.Proofs.Query.Grammar

/-!
# The first error tells how far the tokens are right

A parser whose nonterminals all stand for some tokens comes to an end, and has the correct prefix
property: what it read before its first error begins a sentence, and with the token at the error
no sentence begins. The query language has such a grammar.

Results:
* `parse_first_error`: where the first error is, for every grammar text and all tokens.
-/

namespace PixQuery.Grammar

/-- **The first error is at the first token that is wrong.** In a grammar that was read from a text
and in which every nonterminal stands for some terminals, parsing ends within its fuel; a sentence
has no error; other tokens have their first error at the first token with which they do not begin
a sentence, and at their end exactly when they begin one without being one. The grammar of the query
language is such a grammar. -/
theorem parse_first_error :
    (∀ (text : String) (g : Grammar), ofText text = .ok g → Productive g.productions →
      ∀ tokens : List Token, tokens ≠ [] →
        (∃ n ≤ Parser.fuelFor g tokens,
          Parser.HaltsIn g (Parser.stopOf tokens) n ⟨[], tokens⟩) ∧
        (IsSentence g.productions (terminalsOf tokens) → (g.parse tokens).errors = []) ∧
        (¬ IsSentence g.productions (terminalsOf tokens) →
          (∃ i t expected, tokens[i]? = some t ∧ LeavesAt g.productions tokens i ∧
            (g.parse tokens).errors.head? = some (.unexpectedToken t.text expected t.range)) ∨
          (BeginsSentence g.productions (terminalsOf tokens) ∧ ∃ expected,
            (g.parse tokens).errors.head? =
              some (.unexpectedEnd expected (Parser.stopOf tokens)))) ∧
        ((∃ expected stop, (g.parse tokens).errors.head? = some (.unexpectedEnd expected stop)) ↔
          BeginsSentence g.productions (terminalsOf tokens) ∧
            ¬ IsSentence g.productions (terminalsOf tokens))) ∧
    (∃ text, ofText text = .ok Query.grammar) ∧ Productive Query.grammar.productions := by
  refine ⟨fun text g hg hprod tokens hne => ?_, ⟨_, Query.ofText_definitionOf⟩,
    Query.productive_grammar⟩
  have hbuilt := isBuilt_of_ofText hg
  exact ⟨Parser.halts hbuilt hprod tokens, errors_of_isSentence hbuilt,
    first_error hbuilt hprod hne, unexpectedEnd_iff hbuilt hprod hne⟩

/-- The tokens of `a +`. -/
def openSum : List Token :=
  [⟨.string "a" .word, .between 0 1⟩, ⟨.symbol .plus, .between 2 3⟩]

/-- `a +` is no sum, but begins one. -/
theorem parse_first_error_openSum :
    BeginsSentence sums.productions (terminalsOf openSum) ∧
      ¬ IsSentence sums.productions (terminalsOf openSum) := by
  have hend : (sums.parse openSum).errors.head? = some (.unexpectedEnd ["str"] 3) := by
    decide
  exact ((parse_first_error.1 sumText sums ofText_sumText productive_sums openSum
    (by simp [openSum])).2.2.2).mp ⟨_, _, hend⟩

end PixQuery.Grammar
