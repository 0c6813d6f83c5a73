/-!
# Parsing tables

A table says for each state and terminal what to do (`action`), and for each state and nonterminal
where to go on (`goto`). A missing action is an error of the text that is parsed.

In the program a table is a `SyntaxTable`.
-/

namespace PixQuery

/-- What to do with the next token. -/
inductive Action where
  /-- Read the token and go to a state. -/
  | shift (state : Nat)
  /-- Apply the production with a number. -/
  | reduce (production : Nat)
  /-- The text is a sentence. -/
  | accept
  deriving Repr, DecidableEq, Inhabited

namespace Action

/-- The action as it is written in a table. -/
def text : Action → String
  | shift state => "s" ++ toString state
  | reduce production => "r" ++ toString production
  | accept => "acc"

/-- Whether the action reads a token. -/
def isShift : Action → Bool
  | shift _ => true
  | reduce _ | accept => false

/-- Whether the action applies a production. -/
def isReduce : Action → Bool
  | reduce _ => true
  | shift _ | accept => false

end Action

/-- A parsing table: names of its columns, and the rows of each state. -/
structure Table where
  terminals : List String
  nonterminals : List String
  actions : List (List (Option Action))
  gotos : List (List (Option Nat))
  deriving Repr, DecidableEq, Inhabited

namespace Table

/-- The column of a name; a name that stands twice means the last one. -/
def column? (names : List String) (name : String) : Option Nat :=
  (names.reverse.idxOf? name).map fun i => names.length - 1 - i

/-- The cell of a row that belongs to a name. -/
def cell? {α : Type} (names : List String) (rows : List (List (Option α))) (state : Nat)
    (name : String) : Option α := do
  let column ← column? names name
  let row ← rows[state]?
  (row[column]?).join

/-- How many states there are. -/
def stateCount (t : Table) : Nat := t.actions.length

/-- What to do in a state with a terminal. -/
def action (t : Table) (state : Nat) (terminal : String) : Option Action :=
  cell? t.terminals t.actions state terminal

/-- Where to go on from a state behind a nonterminal. -/
def goto (t : Table) (state : Nat) (nonterminal : String) : Option Nat :=
  cell? t.nonterminals t.gotos state nonterminal

/-- The terminals for which a state has an action, in the order of the columns. -/
def expected (t : Table) (state : Nat) : List String :=
  ((t.actions[state]?.getD []).zip t.terminals).filterMap fun c =>
    if c.1.isSome then some c.2 else none

end Table

end PixQuery
