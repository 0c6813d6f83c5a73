import PixQuery.Fault
import PixQuery.Forecast.Ranking
import PixQuery.Grammar.Trace
import PixQuery.Meaning.Analysis
import PixQuery.Plan.Basic
import PixQuery.Query.Grammar
import PixQuery.Token.Lexer

/-!
# Compiling a query

A compiler is a grammar with options. Each stage hands its result to the next, and all that is found
on the way is gathered; a stage is left out only when the one before it gave nothing. Any error
takes the result away, and a warning never does.

Dates without a year are in the year of the clock unless the options set one, so what takes a
meaning from a text takes that year too. A caller whose options set the year may leave it out: it
makes no difference then (`Compiler.compile_eq_of_currentYear`).

In the program `front` and `analyze_into` of the `Compiler` add to an `ErrorCollector`, which each
of its other functions makes and finishes.
-/

namespace PixQuery

/-- A grammar and the options of a compilation. -/
structure Compiler where
  grammar : Grammar
  options : CompilerOptions

namespace Compiler

/-- The compiler of the query language (`load`). -/
def ofOptions (options : CompilerOptions) : Compiler := ⟨Query.grammar, options⟩

/-- Cut a text into tokens. -/
def lex (c : Compiler) (text : String) : Report (List Token) LexicalFault :=
  PixQuery.lex c.options.lexical text

/-- The tokens of a text, with errors in it too. -/
def tokens (c : Compiler) (text : String) : List Token := (c.lex text).result.getD []

/-- Lex and parse a text: what was found, and the tree if there is one. -/
def front (c : Compiler) (text : String) : Findings Fault × Option Tree :=
  let lexed := c.lex text
  let parsed := c.grammar.parse (lexed.result.getD [])
  ((Findings.empty.absorb .lexical lexed).absorb .grammar parsed, parsed.result)

/-- Parse a text. -/
def parse (c : Compiler) (text : String) : Report Tree Fault :=
  let (findings, tree) := c.front text
  findings.finish tree

/-- The steps of the parser on a text, one line each. -/
def traceLines (c : Compiler) (text : String) : List String := c.grammar.traceLines (c.tokens text)

/-- Lex, parse and understand a text: what was found, and the meaning if there is one
(`analyze_into`). A text without tokens asks for nothing. -/
def understand (c : Compiler) (lookup : Lookup) (text : String) (clock : Int) :
    Findings Fault × Option Meaning :=
  match c.front text with
  | (findings, some tree) =>
    let analyzed := PixQuery.analyze lookup c.options clock tree
    (findings.absorb .semantic analyzed, analyzed.result)
  | (findings, none) => (findings, if findings.errors.isEmpty then some .empty else none)

/-- The meaning of a text, in the year `clock`. -/
def analyze (c : Compiler) (lookup : Lookup) (text : String) (clock : Int := 0) :
    Report Meaning Fault :=
  let (findings, meaning) := c.understand lookup text clock
  findings.finish meaning

/-- The plan of a text, in the year `clock`. -/
def compile (c : Compiler) (lookup : Lookup) (text : String) (clock : Int := 0) :
    Report Plan Fault :=
  match c.understand lookup text clock with
  | (findings, none) => findings.finish none
  | (findings, some meaning) =>
    let planned := meaning.plan c.options
    (findings.absorb .planning planned).finish planned.result

/-- What may stand at a cursor in a text; lexical errors do not prevent it. -/
def forecast (c : Compiler) (lookup : Lookup) (text : String) (cursor : Nat) : Option Forecast := do
  Forecast.of? lookup c.options (← (c.lex text).result) cursor

end Compiler

end PixQuery
