import PixQuery.Text.Integer

/-!
# Arguments of the command line

An invocation is a command with what it works on, and settings that all commands have. Options stand
anywhere between the other words, and a word `--` ends them, so that a query may begin with a minus.
Of an option that is given twice the last one counts.

In the program these are `Cli` and its `Commands`.
-/

namespace PixQuery.CommandLine

/-- How answers are printed (`OutputFormat`). -/
inductive Output where
  | text
  | json
  deriving Repr, DecidableEq, Inhabited

/-- Settings that all commands have. -/
structure Settings where
  output : Output
  /-- Print the answer alone. -/
  quiet : Bool
  /-- The name of an option file. -/
  config : Option String
  /-- A change of options, as a document. -/
  patch : Option String
  deriving Repr, DecidableEq, Inhabited

/-- What is to be done. Metadata, grammars and plans are given by the names of their files. -/
inductive Command where
  /-- Compile a query into a plan. -/
  | compile (query : String) (metadata : Option String)
  /-- Say what may stand at a cursor. -/
  | forecast (query : String) (cursor : Nat) (metadata : Option String)
  /-- Print the tokens of a query. -/
  | lex (query : String)
  /-- Print the steps of the parser. -/
  | trace (query : String)
  /-- Print the table of a grammar, or of the query language. -/
  | table (grammar : Option String)
  /-- Check a plan against the schema of plans. -/
  | validate (plan : String)
  /-- Print a query that means a plan. -/
  | render (plan : String)
  deriving Repr, DecidableEq, Inhabited

/-- A command and the settings. -/
structure Invocation where
  settings : Settings
  command : Command
  deriving Repr, DecidableEq, Inhabited

/-! ## Words -/

/-- Arguments sorted into options with a value, options without one, and all other words. -/
structure Words where
  values : List (String × String)
  flags : List String
  plain : List String
  deriving Repr, DecidableEq, Inhabited

/-- The options without a value. -/
def flagNames : List String := ["--quiet", "--verbose"]

/-- The options with a value. -/
def valueNames : List String :=
  ["--output", "--config", "--set", "--metadata", "--cursor", "--grammar"]

/-- The options with a value that all commands have. -/
def sharedValueNames : List String := ["--output", "--config", "--set"]

/-- An option and its value in one word, as in `--output=json`. -/
def joinedValue? (word : String) : Option (String × String) :=
  match word.toList.dropWhile fun c => c != '=' with
  | _ :: value =>
    let name := String.ofList (word.toList.takeWhile fun c => c != '=')
    if valueNames.contains name then some (name, String.ofList value) else none
  | [] => none

/-- Whether a word looks like an option. -/
def isOptionLike (word : String) : Bool :=
  match word.toList with
  | '-' :: _ :: _ => true
  | _ => false

/-- Sort the arguments. An option that does not exist is refused. -/
def Words.ofArguments? : List String → Option Words
  | [] => some ⟨[], [], []⟩
  | word :: rest =>
    if word = "--" then some ⟨[], [], rest⟩
    else if flagNames.contains word then
      (ofArguments? rest).map fun w => { w with flags := word :: w.flags }
    else if valueNames.contains word then
      match rest with
      | [] => none
      | value :: rest =>
        (ofArguments? rest).map fun w => { w with values := (word, value) :: w.values }
    else
      match joinedValue? word with
      | some v => (ofArguments? rest).map fun w => { w with values := v :: w.values }
      | none =>
        if isOptionLike word then none
        else (ofArguments? rest).map fun w => { w with plain := word :: w.plain }

/-- The value of an option. -/
def Words.value? (w : Words) (name : String) : Option String :=
  (w.values.filter fun v => v.1 == name).getLast?.map Prod.snd

/-- Whether all options with a value are shared ones or among some others. -/
def Words.onlyHas (w : Words) (names : List String) : Bool :=
  w.values.all fun v => sharedValueNames.contains v.1 || names.contains v.1

/-! ## Invocations -/

/-- How answers are to be printed: as text if nothing is said. -/
def Output.ofName? : Option String → Option Output
  | none => some .text
  | some "text" => some .text
  | some "json" => some .json
  | some _ => none

/-- The settings among the words. -/
def Settings.ofWords? (w : Words) : Option Settings := do
  let output ← Output.ofName? (w.value? "--output")
  return ⟨output, w.flags.contains "--quiet", w.value? "--config", w.value? "--set"⟩

/-- A command that has certain options. -/
def Words.allow (w : Words) (names : List String) (command : Command) : Option Command :=
  if w.onlyHas names then some command else none

/-- The command among the words. -/
def Command.ofWords? (w : Words) : Option Command :=
  match w.plain with
  | ["compile", query] =>
    w.allow ["--metadata"] (.compile query (w.value? "--metadata"))
  | ["forecast", query] => do
    let cursor ← Text.unsigned? 64 (← w.value? "--cursor").toList
    w.allow ["--metadata", "--cursor"] (.forecast query cursor (w.value? "--metadata"))
  | ["lex", query] => w.allow [] (.lex query)
  | ["trace", query] => w.allow [] (.trace query)
  | ["table"] => w.allow ["--grammar"] (.table (w.value? "--grammar"))
  | ["validate", plan] => w.allow [] (.validate plan)
  | ["render", plan] => w.allow [] (.render plan)
  | _ => none

/-- The invocation that the arguments make. -/
def Invocation.ofArguments? (arguments : List String) : Option Invocation := do
  let w ← Words.ofArguments? arguments
  return ⟨← Settings.ofWords? w, ← Command.ofWords? w⟩

/-- The name of the option file that is read when none is given. -/
def defaultConfig : String := "pixql.toml"

/-- The names of the files that an invocation may read. -/
def Invocation.fileNames (i : Invocation) : List String :=
  i.settings.config.getD defaultConfig ::
    match i.command with
    | .compile _ metadata | .forecast _ _ metadata => metadata.toList
    | .table grammar => grammar.toList
    | .validate plan | .render plan => [plan]
    | .lex _ | .trace _ => []

end PixQuery.CommandLine
