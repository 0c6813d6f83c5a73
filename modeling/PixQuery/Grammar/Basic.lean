import PixQuery.Grammar.Construction

/-!
# Grammars

A grammar is a list of productions with the table that was built from them.
-/

namespace PixQuery

/-- Productions and their table. -/
structure Grammar where
  productions : List Grammar.Production
  table : Table
  deriving Repr, DecidableEq, Inhabited

namespace Grammar

/-- The production with a number, counted from one (`expression`). -/
def production? (g : Grammar) : Nat → Option Production
  | 0 => none
  | n + 1 => g.productions[n]?

/-- The grammar of a list of productions. -/
def ofProductions (ps : List Production) : Except GrammarError Grammar :=
  (buildTable ps).map fun t => ⟨ps, t⟩

/-- The grammar of a definition text (`from_definition`). -/
def ofText (text : String) : Except GrammarError Grammar :=
  match readDefinition text with
  | .error e => .error (.definition e)
  | .ok ps => ofProductions ps

end Grammar

end PixQuery
