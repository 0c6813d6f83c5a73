import PixQuery.Grammar.Table
import PixQuery.Text.Blank
import PixQuery.Text.Integer

/-!
# Tables as text

The first line counts the terminals and names all columns. Each further line holds a state: its
number, its actions (`s3`, `r1`, `acc`, or `_` for none) and its gotos (a number or `_`). Blank
lines do not count. Reading does not look at the number of a state.

In the program these are `to_text` and `from_text`.
-/

namespace PixQuery.Table

/-! ## Writing -/

/-- A cell that may be empty. -/
def cellText {α : Type} (write : α → String) : Option α → String
  | none => "_"
  | some a => write a

/-- The line of a state. -/
def rowText (state : Nat) (actions : List (Option Action)) (gotos : List (Option Nat)) : String :=
  " ".intercalate
    (toString state :: actions.map (cellText Action.text) ++ gotos.map (cellText toString))

/-- The lines of the states. -/
def rowTexts (t : Table) : List String :=
  ((t.actions.zip t.gotos).zipIdx).map fun r => rowText r.2 r.1.1 r.1.2

/-- The first line. -/
def headerText (t : Table) : String :=
  " ".intercalate (toString t.terminals.length :: t.terminals ++ t.nonterminals)

/-- The table as text (`to_text`). -/
def text (t : Table) : String :=
  String.join ((t.headerText :: t.rowTexts).map (· ++ "\n"))

/-! ## Reading -/

/-- Why a text is no table (`TableError`). Rows are counted from zero. -/
inductive TextError where
  | empty
  | badHeader
  | rowWidth (row expected found : Nat)
  | unknownCell (row : Nat) (cell : String)
  deriving Repr, DecidableEq

/-- The error in words. -/
def TextError.message : TextError → String
  | empty => "syntax table text is empty"
  | badHeader => "syntax table header is malformed"
  | rowWidth row expected found =>
    "row " ++ toString row ++ ": expected " ++ toString expected ++ " cells, found " ++
      toString found
  | unknownCell row cell => "row " ++ toString row ++ ": unknown cell '" ++ cell ++ "'"

/-- A number in a table. -/
def number? (cs : List Char) : Option Nat := Text.unsigned? 64 cs

/-- Read the cell of an action (`parse_action`). -/
def readAction? (cell : List Char) : Option (Option Action) :=
  if cell = ['_'] then some none
  else if cell = ['a', 'c', 'c'] then some (some .accept)
  else
    match cell with
    | 's' :: ds => (number? ds).map fun n => some (.shift n)
    | 'r' :: ds => (number? ds).map fun n => some (.reduce n)
    | _ => none

/-- Read the cell of a goto. -/
def readGoto? (cell : List Char) : Option (Option Nat) :=
  if cell = ['_'] then some none else (number? cell).map some

/-- Read cells; the first that cannot be read decides. -/
def readCells {α : Type} (row : Nat) (read : List Char → Option α) :
    List (List Char) → Except TextError (List α)
  | [] => .ok []
  | c :: cs =>
    match read c with
    | none => .error (.unknownCell row (String.ofList c))
    | some a => (readCells row read cs).map (a :: ·)

/-- Read a row with `m` actions and `n` gotos. -/
def readRow (row m n : Nat) (line : List Char) :
    Except TextError (List (Option Action) × List (Option Nat)) := do
  let cells := Text.words line
  if cells.length ≠ 1 + m + n then .error (.rowWidth row (1 + m + n) cells.length)
  else
    let actions ← readCells row readAction? ((cells.drop 1).take m)
    let gotos ← readCells row readGoto? (cells.drop (1 + m))
    return (actions, gotos)

/-- Read rows, the first of which has the number `row`. -/
def readRows (m n : Nat) (row : Nat) :
    List (List Char) → Except TextError (List (List (Option Action) × List (Option Nat)))
  | [] => .ok []
  | line :: lines => do
    let r ← readRow row m n line
    let rs ← readRows m n (row + 1) lines
    return r :: rs

/-- Read a table (`from_text`). -/
def ofText (s : String) : Except TextError Table :=
  match (Text.lines s.toList).filter fun l => !(Text.trim l).isEmpty with
  | [] => .error .empty
  | header :: lines =>
    match Text.words header with
    | [] => .error .badHeader
    | count :: names =>
      match number? count with
      | none => .error .badHeader
      | some m =>
        if names.length < m then .error .badHeader
        else do
          let rows ← readRows m (names.length - m) 0 lines
          let names := names.map String.ofList
          return ⟨names.take m, names.drop m, rows.map Prod.fst, rows.map Prod.snd⟩

end PixQuery.Table
