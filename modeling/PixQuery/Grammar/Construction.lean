import PixQuery.Grammar.Automaton
import PixQuery.Grammar.Follow
import PixQuery.Grammar.Table

/-!
# From productions to a table

In a state with a complete item its production is applied, before those terminals that can stand
behind its key. When two actions compete for one cell, the grammar is refused with all such
conflicts: nothing picks a winner.

In the program this is the second part of `build`.
-/

namespace PixQuery.Grammar

/-- Actions that compete for one cell. -/
structure Conflict where
  state : Nat
  lookahead : String
  actions : List Action
  deriving Repr, DecidableEq, Inhabited

namespace Conflict

/-- Reading a token competes with applying a production. -/
def isShiftReduce (c : Conflict) : Bool :=
  c.actions.any Action.isShift && c.actions.any Action.isReduce

/-- The conflict in words. -/
def text (c : Conflict) : String :=
  (if c.isShiftReduce then "shift/reduce" else "reduce/reduce") ++ " conflict in state " ++
    toString c.state ++ " on '" ++ c.lookahead ++ "': " ++
    " vs ".intercalate (c.actions.map Action.text)

end Conflict

/-- Why a grammar is refused (`BuildError` and `DefinitionError`). -/
inductive GrammarError where
  | definition (error : DefinitionError)
  | conflicts (first : Conflict) (others : List Conflict)
  deriving Repr, DecidableEq

/-- The error in words. -/
def GrammarError.message : GrammarError → String
  | definition error => error.message
  | conflicts first others =>
    toString (others.length + 1) ++ " conflict(s); first: " ++ first.text

/-- The tokens that the edges of a state read. -/
def shifts (edges : List Edge) (terminal : String) : List Action :=
  edges.filterMap fun e => if e.symbol = .terminal terminal then some (.shift e.target) else none

/-- What a complete item does before a terminal. -/
def completion? (ps : List Production) (follow : List (String × String)) (terminal : String)
    (i : Item) : Option Action :=
  if i.production = 0 then
    if terminal = eof then some .accept else none
  else if follow.contains (keyOf ps i.production, terminal) then some (.reduce i.production)
  else none

/-- The actions of a state: its complete items and its edges, before a terminal. -/
def competing (ps : List Production) (follow : List (String × String)) (complete : List Item)
    (edges : List Edge) (terminal : String) : List Action :=
  shifts edges terminal ++ complete.filterMap (completion? ps follow terminal)

/-- The competing actions of all cells. -/
def cells (ps : List Production) (a : Automaton) : List (List (List Action)) :=
  let follow := followPairs ps
  let names := terminals ps
  (a.states.zip a.edges).map fun s =>
    let complete := s.1.filter fun i => i.isComplete ps
    names.map (competing ps follow complete s.2)

/-- The conflicts of a row of cells. -/
def rowConflicts (names : List String) (row : List (List Action) × Nat) : List Conflict :=
  (row.1.zip names).filterMap fun c =>
    if 1 < c.1.length then some ⟨row.2, c.2, c.1⟩ else none

/-- Where each nonterminal leads to from a state. -/
def gotoRow (names : List String) (edges : List Edge) : List (Option Nat) :=
  names.map fun n =>
    (edges.find? fun e => e.symbol = .nonterminal n).map Edge.target

/-- The table of a grammar (`build`). -/
def buildTable (ps : List Production) : Except GrammarError Table :=
  let a := automaton ps
  let rows := cells ps a
  match rows.zipIdx.flatMap (rowConflicts (terminals ps)) with
  | first :: others => .error (.conflicts first others)
  | [] =>
    .ok
      { terminals := terminals ps
        nonterminals := nonterminals ps
        actions := rows.map fun row => row.map List.head?
        gotos := a.edges.map (gotoRow (nonterminals ps)) }

end PixQuery.Grammar
