import PixQuery.Grammar.Production
import PixQuery.Grammar.Saturation

/-!
# Items and item sets

An item is a production with a dot in its body: what stands before the dot has been seen. Production
number zero is the added one whose body is the start key; the others are counted from one. An item
set holds, besides some items, the undotted productions of every nonterminal behind a dot
(`closure`). It is kept as a list in one order, so that equal sets are equal lists.

In the program `Augmented` knows the added production; its functions are `len`, `next`, `key`,
`closure` and `goto`.
-/

namespace PixQuery.Grammar

/-- A production, by its number, with a dot in its body. -/
structure Item where
  production : Nat
  dot : Nat
  deriving Repr, DecidableEq, Inhabited

/-- The items of a state, in the order of `items`. -/
abbrev ItemSet := List Item

/-- The body of the production with a number. -/
def bodyOf (ps : List Production) : Nat → List Sym
  | 0 => [.nonterminal (startKey ps)]
  | n + 1 => (ps[n]?.map Production.body).getD []

/-- The key of the production with a number; the added production has none (`key`). -/
def keyOf (ps : List Production) : Nat → String
  | 0 => ""
  | n + 1 => (ps[n]?.map Production.key).getD ""

namespace Item

/-- The symbol behind the dot. -/
def next? (ps : List Production) (i : Item) : Option Sym := (bodyOf ps i.production)[i.dot]?

/-- The dot stands behind the whole body. -/
def isComplete (ps : List Production) (i : Item) : Bool := (bodyOf ps i.production).length ≤ i.dot

/-- The item with the dot one symbol further. -/
def advance (i : Item) : Item := { i with dot := i.dot + 1 }

end Item

/-- All items of a grammar, by production and then by dot. -/
def items (ps : List Production) : List Item :=
  (List.range (ps.length + 1)).flatMap fun n =>
    (List.range ((bodyOf ps n).length + 1)).map fun d => ⟨n, d⟩

/-- The nonterminals that begin a production of one of the nonterminals. -/
def expandStep (ps : List Production) (keys : List String) : List String :=
  ps.filterMap fun p => if keys.contains p.key then p.first.nonterminal? else none

/-- The nonterminals whose productions may begin behind a dot of the items. -/
def expanded (ps : List Production) (kernel : List Item) : List String :=
  saturate (expandStep ps) ps.length
    (kernel.filterMap fun i => (i.next? ps).bind Sym.nonterminal?)

/-- The items and all undotted productions that may begin behind one of their dots. -/
def closure (ps : List Production) (kernel : List Item) : ItemSet :=
  let keys := expanded ps kernel
  (items ps).filter fun i =>
    kernel.contains i ||
      (i.dot == 0 && i.production != 0 && keys.contains (keyOf ps i.production))

/-- The item set in which nothing has been seen. -/
def startSet (ps : List Production) : ItemSet := closure ps [⟨0, 0⟩]

/-- The item set after seeing a symbol (`goto`). -/
def advance (ps : List Production) (set : ItemSet) (symbol : Sym) : ItemSet :=
  closure ps ((set.filter fun i => i.next? ps = some symbol).map Item.advance)

/-- The symbols behind the dots of an item set, in the order of its items. -/
def nextSymbols (ps : List Production) (set : ItemSet) : List Sym :=
  (set.filterMap fun i => i.next? ps).eraseDups

end PixQuery.Grammar
