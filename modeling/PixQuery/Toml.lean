import PixQuery.Json.Reader
import PixQuery.Text.Blank

/-!
# Option files

Option files are written in a part of TOML: lines with a key and a value, a table for the lines
behind its name in brackets, comments behind `#`, and blank lines. A value is a whole number, a
boolean, or a string between quotes. `Toml.parse?` answers with the document that the file means; a
key or table that is written twice is refused.
-/

namespace PixQuery.Toml

/-! ## Lines -/

/-- What a line says. -/
inductive Line where
  | blank
  | table (name : String)
  | pair (key : String) (value : Json)

/-- The characters without the blanks and tabs in front. -/
def skipBlanks (cs : List Char) : List Char := cs.dropWhile fun c => c == ' ' || c == '\t'

/-- Whether nothing follows but a comment. -/
def endsHere (cs : List Char) : Bool :=
  match skipBlanks cs with
  | [] => true
  | c :: _ => c == '#'

/-- Whether the character may stand in a key. -/
def isKeyChar (c : Char) : Bool := c.isAlphanum || c == '_' || c == '-'

/-- A key, and what follows it. -/
def key? (cs : List Char) : Option (String × List Char) :=
  let name := cs.takeWhile isKeyChar
  if name.isEmpty then none else some (String.ofList name, cs.dropWhile isKeyChar)

/-- Whether the characters are digits, in groups that single underscores divide. -/
def isDigitGroups (cs : List Char) : Bool :=
  (Text.splitAt '_' cs).all fun group => !group.isEmpty && group.all Char.isDigit

/-- A whole number of 64 bits. It does not begin with a zero, unless it is zero. -/
def integer? (cs : List Char) : Option Json :=
  let (sign, digits) : Int × List Char :=
    match cs with
    | '-' :: ds => (-1, ds)
    | '+' :: ds => (1, ds)
    | ds => (1, ds)
  if isDigitGroups digits && (digits.length == 1 || digits.head? != some '0') then
    let value := sign * Json.digitsValue (digits.filter Char.isDigit)
    if Word.holdsInt 64 value then some (.whole value) else none
  else none

/-- A boolean or a whole number. -/
def word? (cs : List Char) : Option Json :=
  if cs = "true".toList then some (.bool true)
  else if cs = "false".toList then some (.bool false)
  else integer? cs

/-- A value, and what follows it. -/
def value? (cs : List Char) : Option (Json × List Char) :=
  match cs with
  | '\x22' :: rest =>
    (Json.stringBody [] rest).map fun (s, rest) => (.text (String.ofList s), rest)
  | '\x27' :: rest =>
    match rest.dropWhile fun c => c != '\x27' with
    | _ :: after => some (.text (String.ofList (rest.takeWhile fun c => c != '\x27')), after)
    | [] => none
  | cs =>
    let isWordChar (c : Char) : Bool := isKeyChar c || c == '+'
    (word? (cs.takeWhile isWordChar)).map fun j => (j, cs.dropWhile isWordChar)

/-- Read a line. -/
def line? (cs : List Char) : Option Line :=
  if endsHere cs then some .blank
  else
    match skipBlanks cs with
    | '[' :: rest => do
      let (name, rest) ← key? (skipBlanks rest)
      match skipBlanks rest with
      | ']' :: rest => if endsHere rest then some (.table name) else none
      | _ => none
    | cs => do
      let (key, rest) ← key? cs
      match skipBlanks rest with
      | '=' :: rest => do
        let (value, rest) ← value? (skipBlanks rest)
        if endsHere rest then some (.pair key value) else none
      | _ => none

/-! ## Files -/

/-- What has been read of a file: the members outside of tables, and the tables, the last one
first. -/
structure Progress where
  members : List (String × Json)
  tables : List (String × List (String × Json))

/-- The members with one more, unless its key is there. -/
def add? (members : List (String × Json)) (key : String) (value : Json) :
    Option (List (String × Json)) :=
  if members.any fun m => m.1 == key then none else some (members ++ [(key, value)])

/-- Go on with a line. -/
def Progress.step (p : Progress) : Line → Option Progress
  | .blank => some p
  | .table name =>
    if (p.members.any fun m => m.1 == name) || p.tables.any fun t => t.1 == name then none
    else some { p with tables := (name, []) :: p.tables }
  | .pair key value =>
    match p.tables with
    | [] => (add? p.members key value).map fun ms => { p with members := ms }
    | (name, ms) :: others =>
      (add? ms key value).map fun ms => { p with tables := (name, ms) :: others }

/-- The document that a file means. -/
def parse? (text : String) : Option Json := do
  let lines ← (Text.lines text.toList).mapM line?
  let p ← lines.foldlM Progress.step ⟨[], []⟩
  return .object (p.members ++ p.tables.reverse.map fun t => (t.1, .object t.2))

end PixQuery.Toml
