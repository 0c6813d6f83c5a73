import PixQuery.CommandLine.Arguments
import PixQuery.Compile
import PixQuery.Grammar.TableText
import PixQuery.Json.Reader
import PixQuery.Json.Writer
import PixQuery.Metadata.Codec
import PixQuery.Options.Codec
import PixQuery.Plan.Codec
import PixQuery.Plan.Query
import PixQuery.Plan.Schema
import PixQuery.Token.Codec
import PixQuery.Toml

/-!
# Carrying commands out

`Invocation.run` says what an invocation prints and how it ends. It reads files through a function
from their names to their contents, so it needs nothing else from its surroundings than the year of
the clock. The options are those of the option file, changed by the inline change; with the setting
`quiet` no diagnostics are printed, but the command ends the same.

In the program each command is a function such as `cmd_compile`.
-/

namespace PixQuery.CommandLine

/-- What a command prints, and the number it ends with: zero when all is well. -/
structure Outcome where
  exit : Nat
  stdout : String
  stderr : String
  deriving Repr, DecidableEq, Inhabited

/-- The contents of the files that exist. -/
abbrev Files := String → Option String

/-- A text on a line of its own. -/
def line (text : String) : String := text ++ "\n"

/-- Texts on lines of their own. -/
def lines (texts : List String) : String := String.join (texts.map line)

/-- All is well. -/
def Outcome.ok (stdout : String) : Outcome := ⟨0, stdout, ""⟩

/-! ## Failures -/

/-- What a failure prints. -/
def Settings.failureText (s : Settings) (message : String) : String :=
  if s.quiet then ""
  else
    match s.output with
    | .text => line message
    | .json => line (Json.object [("error", .text message)]).compact

/-- The command cannot be carried out (`report_error`). -/
def Settings.failure (s : Settings) (message : String) : Outcome := ⟨1, "", s.failureText message⟩

/-- Why a file cannot be read. -/
def missingText : String := "No such file or directory (os error 2)"

/-- The content of a file. -/
def readFile (files : Files) (name : String) : Except String String :=
  match files name with
  | some content => .ok content
  | none => .error ("error reading file '" ++ name ++ "': " ++ missingText)

/-! ## What commands work on -/

/-- The options of an option file; without one they are at their defaults. -/
def readConfig (files : Files) (s : Settings) : Except String CompilerOptions :=
  let name := s.config.getD defaultConfig
  match files name with
  | none =>
    if s.config.isSome then .error ("error reading config '" ++ name ++ "': " ++ missingText)
    else .ok .default
  | some content =>
    match (Toml.parse? content).bind CompilerOptions.ofJson? with
    | some options => .ok options
    | none => .error ("error parsing config '" ++ name ++ "': these are no options")

/-- The options of the file, with the inline change (`load`). -/
def readOptions (files : Files) (s : Settings) : Except String CompilerOptions := do
  let options ← readConfig files s
  match s.patch with
  | none => return options
  | some text =>
    match (Json.parse? text).bind OptionsPatch.ofJson? with
    | some patch => return options.apply patch
    | none => .error "error parsing --set: this is no change of options"

/-- The compiler with these settings (`compiler_or_exit`). -/
def readCompiler (files : Files) (s : Settings) : Except String Compiler := do
  return .ofOptions (← readOptions files s)

/-- The metadata of a file; without one there is none (`load_metadata`). -/
def readLookup (files : Files) : Option String → Except String Lookup
  | none => .ok .empty
  | some name => do
    let content ← readFile files name
    match (Json.parse? content).bind Snapshot.ofJson? with
    | some snapshot => return snapshot.lookup
    | none => .error ("error parsing metadata in '" ++ name ++ "': this is no metadata")

/-- The document of a file; of a key that is written twice the last value counts (`read_plan`). -/
def readDocument (files : Files) (name : String) : Except String Json := do
  let content ← readFile files name
  match Json.parse? content with
  | some j => return j.withoutRepeats
  | none => .error ("error parsing JSON in '" ++ name ++ "': this is no document")

/-- The grammar of a file; without one that of the query language. -/
def readGrammar (files : Files) : Option String → Except String Grammar
  | none => .ok Query.grammar
  | some name => do
    let content ← readFile files name
    match Grammar.ofText content with
    | .ok g => return g
    | .error e => .error ("grammar rejected: " ++ e.message)

/-! ## Answers -/

/-- What is printed of the findings: as text all of them, as a document only when there are errors
(`report_diagnostics`). -/
def Settings.findingsText (s : Settings) (warnings errors : List Diagnostic) : String :=
  match s.output with
  | .text =>
    if s.quiet then ""
    else
      lines
        (warnings.map (fun d => "warning: " ++ d.text) ++ errors.map fun d => "error: " ++ d.text)
  | .json =>
    if errors.isEmpty then ""
    else
      line (Json.object
        [("errors", .array (errors.map Diagnostic.json)),
          ("warnings", .array (warnings.map Diagnostic.json))]).pretty

/-- An answer together with what was found; with an error the command fails. -/
def Settings.answer (s : Settings) (stdout : String) (warnings errors : List Diagnostic) :
    Outcome :=
  ⟨if errors.isEmpty then 0 else 1, stdout, s.findingsText warnings errors⟩

/-- A plan as an answer. -/
def Settings.planText (s : Settings) (plan : Plan) (warnings : List Diagnostic) : String :=
  match s.output with
  | .text => line plan.json.pretty
  | .json =>
    line (Json.object
      [("plan", plan.json), ("warnings", .array (warnings.map Diagnostic.json))]).pretty

/-- Print the plan of a query (`cmd_compile`). -/
def compileQuery (s : Settings) (c : Compiler) (clock : Int) (lookup : Lookup) (query : String) :
    Outcome :=
  let r := c.compile lookup query clock
  let warnings := r.warnings.map Fault.diagnostic
  let errors := r.errors.map Fault.diagnostic
  match errors, r.result with
  | [], none =>
    ⟨1, "", s.findingsText warnings errors ++ s.failureText "no query plan produced"⟩
  | [], some plan => s.answer (s.planText plan warnings) warnings errors
  | _ :: _, _ => s.answer "" warnings errors

/-- The line of a suggestion. -/
def suggestionLine (g : Suggestion) : String :=
  match g.entity with
  | some (kind, _) => g.name ++ "  (" ++ kind.name ++ ")"
  | none => g.name

/-- Print what may stand at a cursor (`cmd_forecast`). -/
def forecastQuery (s : Settings) (c : Compiler) (lookup : Lookup) (query : String)
    (cursor : Nat) : Outcome :=
  let f := c.forecast lookup query cursor
  .ok
    (match s.output, f with
    | .json, f => line (Json.ofOption Forecast.json f).pretty
    | .text, none => if s.quiet then "" else line "no forecast"
    | .text, some f =>
      lines
        ((if s.quiet then [] else ["replace " ++ f.span.text]) ++
          f.suggestions.map suggestionLine))

/-- A text, filled up with spaces on the right. -/
def padRight (width : Nat) (text : String) : String :=
  text ++ String.ofList (List.replicate (width - text.length) ' ')

/-- The line of a token: where it is, its terminal and what it says. -/
def tokenLine (t : Token) : String :=
  padRight 8 t.range.text ++ " " ++ padRight 6 t.terminal ++ " " ++ t.text

/-- Print the tokens of a query (`cmd_lex`). -/
def lexQuery (s : Settings) (c : Compiler) (query : String) : Outcome :=
  let r := c.lex query
  let tokens := r.result.getD []
  let text :=
    match s.output with
    | .text => lines (tokens.map tokenLine)
    | .json => line (Json.array (tokens.map Token.json)).pretty
  s.answer text (r.warnings.map LexicalFault.diagnostic) (r.errors.map LexicalFault.diagnostic)

/-- Print the steps of the parser on a query (`cmd_trace`). -/
def traceQuery (s : Settings) (c : Compiler) (query : String) : Outcome :=
  let r := c.parse query
  let steps := c.traceLines query
  let text :=
    match s.output with
    | .text => lines steps
    | .json => line (Json.ofTexts steps).pretty
  s.answer text (r.warnings.map Fault.diagnostic) (r.errors.map Fault.diagnostic)

/-- Print the table of a grammar (`cmd_table`). -/
def printTable (s : Settings) (g : Grammar) : Outcome :=
  let counts :=
    toString g.productions.length ++ " productions, " ++ toString g.table.stateCount ++ " states"
  .ok
    (match s.output with
    | .text => (if s.quiet then "" else line counts) ++ g.table.text
    | .json =>
      line (Json.object
        [("productions", .ofTexts (g.productions.map fun p => p.text)),
          ("states", .ofNat g.table.stateCount), ("terminals", .ofTexts g.table.terminals),
          ("non_terminals", .ofTexts g.table.nonterminals)]).pretty)

/-- What is said about a document that does not fit the schema. -/
def misfit : String := "the document does not fit the schema of query plans"

/-- Check a document against the schema of plans (`cmd_validate`). -/
def validateDocument (s : Settings) (j : Json) : Outcome :=
  if Plan.schema.accepts j then
    .ok
      (if s.quiet then ""
      else
        match s.output with
        | .text => line "valid"
        | .json => line "\x7b\"valid\": true\x7d")
  else
    ⟨1, "",
      match s.output with
      | .text => if s.quiet then "" else lines ["invalid plan", "  - " ++ misfit]
      | .json => line (Json.object [("errors", .ofTexts [misfit]), ("valid", .bool false)]).pretty⟩

/-- Print a query that means the plan in a document (`cmd_render`). -/
def renderDocument (s : Settings) (name : String) (j : Json) : Outcome :=
  match Plan.ofJson? j with
  | none => s.failure ("error: '" ++ name ++ "' is not a query plan: this is no plan")
  | some plan =>
    .ok
      (match s.output with
      | .text => line plan.query
      | .json => line (Json.object [("query", .text plan.query)]).pretty)

/-! ## Commands -/

/-- The outcome of a command where the clock is in the year `clock`, or the message of a failure. -/
def Command.attempt (files : Files) (clock : Int) (s : Settings) :
    Command → Except String Outcome
  | compile query metadata => do
    let c ← readCompiler files s
    return compileQuery s c clock (← readLookup files metadata) query
  | forecast query cursor metadata => do
    let c ← readCompiler files s
    return forecastQuery s c (← readLookup files metadata) query cursor
  | lex query => do return lexQuery s (← readCompiler files s) query
  | trace query => do return traceQuery s (← readCompiler files s) query
  | table grammar => do return printTable s (← readGrammar files grammar)
  | validate plan => do return validateDocument s (← readDocument files plan)
  | render plan => do return renderDocument s plan (← readDocument files plan)

/-- Carry an invocation out where the clock is in the year `clock`. -/
def Invocation.run (files : Files) (clock : Int) (i : Invocation) : Outcome :=
  match i.command.attempt files clock i.settings with
  | .ok outcome => outcome
  | .error message => i.settings.failure message

end PixQuery.CommandLine
