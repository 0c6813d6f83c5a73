import PixQuery.Grammar.Production
import PixQuery.Grammar.Saturation

/-!
# First and follow

`firstPairs` holds the pairs of a nonterminal and a terminal that can begin what the nonterminal
stands for; `followPairs` those of a nonterminal and a terminal that can stand right behind it in a
sentence. Both are the least sets closed under their rules. No production is empty, so only the
first symbol of a body decides what it begins with.

In the program these are the sets of `first_sets` and `follow_sets`, which grow in place until a
round changes nothing.
-/

namespace PixQuery.Grammar

/-- The second components of the pairs that begin with `a`. -/
def image (pairs : List (String × String)) (a : String) : List String :=
  pairs.filterMap fun p => if p.1 = a then some p.2 else none

/-- The terminals that can begin what a symbol stands for. -/
def firstOf (first : List (String × String)) : Sym → List String
  | .terminal t => [t]
  | .nonterminal a => image first a

/-- What follows about first terminals from the pairs found so far (a round of `first_sets`). -/
def firstStep (ps : List Production) (first : List (String × String)) : List (String × String) :=
  ps.flatMap fun p => (firstOf first p.first).map fun t => (p.key, t)

/-- How many pairs of a nonterminal and a terminal there are. -/
def pairBound (ps : List Production) : Nat := (nonterminals ps).length * (terminals ps).length

/-- The pairs of a nonterminal and a terminal that can begin it (`first_sets`). -/
def firstPairs (ps : List Production) : List (String × String) :=
  saturate (firstStep ps) (pairBound ps) []

/-- What follows about the terminals behind the nonterminals of a body, in a production of `key`. -/
def followInBody (first follow : List (String × String)) (key : String) :
    List Sym → List (String × String)
  | [] => []
  | .terminal _ :: rest => followInBody first follow key rest
  | .nonterminal a :: rest =>
    (match rest with
      | [] => image follow key
      | next :: _ => firstOf first next).map (fun t => (a, t)) ++ followInBody first follow key rest

/-- What follows about the terminals behind nonterminals from the pairs found so far (a round of
`follow_sets`). -/
def followStep (ps : List Production) (first follow : List (String × String)) :
    List (String × String) :=
  ps.flatMap fun p => followInBody first follow p.key p.body

/-- The pairs of a nonterminal and a terminal that can stand right behind it (`follow_sets`). -/
def followPairs (ps : List Production) : List (String × String) :=
  saturate (followStep ps (firstPairs ps)) (pairBound ps) [(startKey ps, eof)]

end PixQuery.Grammar
