import PixQuery.Text.Blank

/-!
# Productions and their definition text

A grammar is a list of productions. Its definition text has one production to a line, written
`KEY -> symbols`; blank lines and lines that begin with `//` are left out. A symbol that is the key
of some production is a nonterminal, and every other symbol is a terminal. No production is empty,
and the terminal that marks the end of a sentence cannot be written.

In the program a symbol is a `Notation`, a production a `SyntaxExpression`, and `parse_definition`
reads the text.
-/

namespace PixQuery.Grammar

/-- The terminal behind the last token of a sentence (`EOF`). -/
def eof : String := "<eof>"

/-- A symbol in a production (`Notation`). -/
inductive Sym where
  | terminal (name : String)
  | nonterminal (name : String)
  deriving Repr, DecidableEq, Inhabited

namespace Sym

/-- How the symbol is written. -/
def name : Sym → String
  | terminal n => n
  | nonterminal n => n

/-- Whether the symbol stands for a single token. -/
def isTerminal : Sym → Bool
  | terminal _ => true
  | nonterminal _ => false

/-- The name of a terminal. -/
def terminal? : Sym → Option String
  | terminal n => some n
  | nonterminal _ => none

/-- The name of a nonterminal. -/
def nonterminal? : Sym → Option String
  | terminal _ => none
  | nonterminal n => some n

end Sym

/-- A production: a key and the symbols it stands for, of which there is at least one
(`SyntaxExpression`). -/
structure Production where
  key : String
  first : Sym
  others : List Sym
  deriving Repr, DecidableEq, Inhabited

namespace Production

/-- The symbols that the key stands for. -/
def body (p : Production) : List Sym := p.first :: p.others

/-- The production as it is written. -/
def text (p : Production) : String :=
  p.key ++ " ->" ++ String.join (p.body.map fun s => " " ++ s.name)

theorem body_ne_nil (p : Production) : p.body ≠ [] := by simp [body]

end Production

/-! ## Rules: productions whose symbols are not told apart yet -/

/-- A line of a definition: a key and the symbols behind the arrow. -/
structure Rule where
  key : String
  first : String
  others : List String
  deriving Repr, DecidableEq

/-- A symbol: a nonterminal when it is a key. -/
def Sym.ofName (keys : List String) (name : String) : Sym :=
  if keys.contains name then .nonterminal name else .terminal name

/-- The productions of a list of rules. -/
def productionsOf (rules : List Rule) : List Production :=
  let keys := rules.map Rule.key
  rules.map fun r => ⟨r.key, .ofName keys r.first, r.others.map (.ofName keys)⟩

/-! ## The definition text -/

/-- Why a definition text is refused. Lines are counted from one. -/
inductive DefinitionError where
  | malformed (line : Nat)
  | emptyProduction (line : Nat) (key : String)
  | reservedSymbol (line : Nat)
  | noProductions
  deriving Repr, DecidableEq

/-- The error in words. -/
def DefinitionError.message : DefinitionError → String
  | malformed line => "line " ++ toString line ++ ": expected 'KEY -> symbols'"
  | emptyProduction line key => "line " ++ toString line ++ ": production of " ++ key ++ " is empty"
  | reservedSymbol line => "line " ++ toString line ++ ": '" ++ eof ++ "' is reserved"
  | noProductions => "grammar definition has no productions"

/-- Whether a line holds no production. -/
def isRemark (line : List Char) : Bool :=
  match Text.trim line with
  | [] => true
  | '/' :: '/' :: _ => true
  | _ => false

/-- Read the line with the number `line`. -/
def readRule (line : Nat) (cs : List Char) : Except DefinitionError Rule :=
  match (Text.words cs).map String.ofList with
  | key :: "->" :: symbols =>
    match symbols with
    | [] => .error (.emptyProduction line key)
    | first :: others =>
      if (key :: symbols).contains eof then .error (.reservedSymbol line)
      else .ok ⟨key, first, others⟩
  | _ => .error (.malformed line)

/-- Read lines, the first of which has the number `line` (the loop of `parse_definition`). The first
bad line decides. -/
def readRules (line : Nat) : List (List Char) → Except DefinitionError (List Rule)
  | [] => .ok []
  | l :: ls => do
    if isRemark l then readRules (line + 1) ls
    else
      let rule ← readRule line l
      let rules ← readRules (line + 1) ls
      return rule :: rules

/-- Read a definition text (`parse_definition`). -/
def readDefinition (text : String) : Except DefinitionError (List Production) := do
  let rules ← readRules 1 (Text.lines text.toList)
  if rules.isEmpty then .error .noProductions else .ok (productionsOf rules)

/-! ## The symbols of a grammar -/

/-- The terminals in the order in which they first appear, and the end of the sentence. -/
def terminals (ps : List Production) : List String :=
  (ps.flatMap fun p => p.body.filterMap Sym.terminal?).eraseDups ++ [eof]

/-- The nonterminals in the order in which they are first defined (`non_terminals`). -/
def nonterminals (ps : List Production) : List String := (ps.map Production.key).eraseDups

/-- The nonterminal of all sentences: the key of the first production. -/
def startKey (ps : List Production) : String := (ps.head?.map Production.key).getD ""

end PixQuery.Grammar
