import PixQuery.Grammar.Item

/-!
# The automaton of a grammar

The states are the item sets that can be reached from `startSet` by seeing symbols. They are
numbered in the order in which they are found: state by state, and in each state symbol by symbol.

In the program this is the first part of `build`, the canonical collection.
-/

namespace PixQuery.Grammar

/-- A symbol and the number of the state that it leads to. -/
structure Edge where
  symbol : Sym
  target : Nat
  deriving Repr, DecidableEq

/-- Item sets by number, and the edges out of each. -/
structure Automaton where
  states : List ItemSet
  edges : List (List Edge)
  deriving Repr, DecidableEq

/-- The number of a state, which joins the states when it is new (the lookup of `index`). -/
def number (states : List ItemSet) (set : ItemSet) : List ItemSet × Nat :=
  match states.idxOf? set with
  | some n => (states, n)
  | none => (states ++ [set], states.length)

/-- The edges out of `set` under the symbols, and the states with those that were new. -/
def edgesFrom (ps : List Production) (set : ItemSet) :
    List ItemSet → List Sym → List ItemSet × List Edge
  | states, [] => (states, [])
  | states, s :: symbols =>
    let (states, n) := number states (advance ps set s)
    let (states, edges) := edgesFrom ps set states symbols
    (states, ⟨s, n⟩ :: edges)

/-- Find the edges of the states that have none yet, for at most `rounds` states (the loop over
`cursor`). -/
def explore (ps : List Production) :
    (rounds : Nat) → List ItemSet → List (List Edge) → Automaton
  | 0, states, edges => ⟨states, edges⟩
  | n + 1, states, edges =>
    match states[edges.length]? with
    | none => ⟨states, edges⟩
    | some set =>
      let (states, out) := edgesFrom ps set states (nextSymbols ps set)
      explore ps n states (edges ++ [out])

/-- The automaton of a grammar. Its states are subsets of the items, which bounds their number. -/
def automaton (ps : List Production) : Automaton :=
  explore ps (Nat.pow 2 (items ps).length) [startSet ps] []

end PixQuery.Grammar
