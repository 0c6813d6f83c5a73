import PixQuery.Grammar.Parser

/-!
# The steps of the parser as lines

Each line begins with the state in which the step was made, three characters wide.

In the program a `TracePrinter` is the hook that writes them.
-/

namespace PixQuery

/-- A number, filled up with spaces on the left. -/
def padLeft (width n : Nat) : String :=
  let digits := toString n
  String.ofList (List.replicate (width - digits.length) ' ') ++ digits

/-- The line of a step. -/
def ParseEvent.line : ParseEvent → String
  | shift state token next =>
    padLeft 3 state ++ "  shift  '" ++ token.text ++ "' (" ++ token.terminal ++ ") -> " ++
      toString next
  | reduce state number production next =>
    padLeft 3 state ++ "  reduce r" ++ toString number ++ " " ++ production.text ++ " -> " ++
      toString next
  | fault state f => padLeft 3 state ++ "  error  " ++ f.message
  | accept => "     accept"

/-- The lines of all steps that parsing some tokens takes. -/
def Grammar.traceLines (g : Grammar) (tokens : List Token) : List String :=
  (Parser.trace g tokens).1.map ParseEvent.line

end PixQuery
