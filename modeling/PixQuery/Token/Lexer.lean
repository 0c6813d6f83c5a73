import PixQuery.Fault.Lexical
import PixQuery.Report
import PixQuery.Token.Alphabet

/-!
# Cutting a text into tokens

`Lexer.piece` reads one piece from the front of a text: a blank, a token, or a run of characters
that no token begins with. `Lexer.pieces` reads a whole text that way, and `lex` sorts the pieces
into tokens, warnings and errors. Nothing stops the reading: a run that is no token is skipped, and
a quoted text that is not closed goes to the end of the text and is kept.

In the program `analyze` makes a `Lexer`, whose `run` reads the pieces one behind the other and
pushes what it finds; here the pieces come first and are sorted afterwards.
-/

namespace PixQuery

namespace Lexer

open Alphabet

/-- What was read behind an opening quote. -/
structure QuotedText where
  value : List Char
  /-- The characters read, the closing quote among them. -/
  width : Nat
  closed : Bool
  warnings : List LexicalFault

/-- Put a character that takes `width` characters of text in front of a quoted text. -/
def QuotedText.push (c : Char) (width : Nat) (q : QuotedText) : QuotedText :=
  { q with value := c :: q.value, width := q.width + width }

/-- Read a quoted text up to the character that closes it; `pos` is the position of the first
character (`quoted`). A backslash before a character without a meaning is dropped, with a
warning. -/
def quotedText (close : Char) (pos : Nat) : List Char → QuotedText
  | [] => ⟨[], 0, false, []⟩
  | c :: cs =>
    if c = close then ⟨[], 1, true, []⟩
    else if c = '\\' then
      match cs with
      | [] => ⟨[], 1, false, [.escapeAtEnd (pos + 1)]⟩
      | e :: rest =>
        let q := quotedText close (pos + 2) rest
        match find? escapes e with
        | some v => q.push v 2
        | none => { q.push e 2 with warnings := .needlessEscape e (pos + 1) :: q.warnings }
    else (quotedText close (pos + 1) cs).push c 1

/-- What stands at the front of a text. -/
inductive Content where
  | blank
  | token (lexeme : Lexeme) (warnings : List LexicalFault) (error : Option LexicalFault)
  | unknown
  deriving DecidableEq

/-- A piece of text: its content, and how many characters it covers behind the first. -/
structure Piece where
  content : Content
  more : Nat
  deriving DecidableEq

/-- The characters of a bare word behind its first (the loop of `restricted`). -/
def wordTail (o : LexicalOptions) (cs : List Char) : List Char :=
  cs.takeWhile fun d => !endsWord o d

/-- The value of a bare word (the end of `restricted`). -/
def wordValue (o : LexicalOptions) (cs : List Char) : String :=
  String.ofList (if o.underscoreAsSpace then cs.map fun c => if c = '_' then ' ' else c else cs)

/-- The piece at the front of the text `c :: cs`, whose first character stands at `pos` (one round
of `run`). -/
def piece (o : LexicalOptions) (pos : Nat) (c : Char) (cs : List Char) : Piece :=
  if spaces.contains c then ⟨.blank, 0⟩
  else
    match symbol? o c with
    | some s =>
      match (cs.head?.bind (reflect? o)).bind s.extend? with
      | some double => ⟨.token (.symbol double) [] none, 1⟩
      | none => ⟨.token (.symbol s) [] none, 0⟩
    | none =>
      match quote? o c with
      | some (kind, close) =>
        let q := quotedText close (pos + 1) cs
        let open_ := LexicalFault.unterminated c (.between pos (pos + 1 + q.width))
        ⟨.token (.string (String.ofList q.value) kind) q.warnings
          (if q.closed then none else some open_), q.width⟩
      | none =>
        if forbiddenStart.contains c then
          ⟨.unknown, (cs.takeWhile fun d => !isBoundary o d).length⟩
        else
          let tail := wordTail o cs
          ⟨.token (.string (wordValue o (c :: tail)) .word) [] none, tail.length⟩

/-- A piece where it stands. -/
structure Placed where
  start : Nat
  content : Content
  /-- The characters that the piece covers. -/
  chars : List Char

/-- The stretch of text that a piece covers. -/
def Placed.range (p : Placed) : Span := .between p.start (p.start + p.chars.length)

/-- All pieces of a text whose first character stands at `pos` (`run`). -/
def pieces (o : LexicalOptions) (pos : Nat) : List Char → List Placed
  | [] => []
  | c :: cs =>
    let p := piece o pos c cs
    ⟨pos, p.content, c :: cs.take p.more⟩ :: pieces o (pos + 1 + p.more) (cs.drop p.more)
termination_by cs => cs.length
decreasing_by
  simp only [List.length_drop, List.length_cons]
  omega

/-- The token of a piece. -/
def Placed.token? (p : Placed) : Option Token :=
  match p.content with
  | .token lexeme _ _ => some ⟨lexeme, p.range⟩
  | .blank | .unknown => none

/-- The warnings of a piece. -/
def Placed.warnings (p : Placed) : List LexicalFault :=
  match p.content with
  | .token _ warnings _ => warnings
  | .blank | .unknown => []

/-- The error of a piece. -/
def Placed.error? (p : Placed) : Option LexicalFault :=
  match p.content with
  | .token _ _ error => error
  | .blank => none
  | .unknown => some (.unrecognized (String.ofList p.chars) p.range)

/-- Sort pieces into tokens, warnings and errors. -/
def report (ps : List Placed) : Report (List Token) LexicalFault :=
  ⟨some (ps.filterMap Placed.token?), ps.flatMap Placed.warnings, ps.filterMap Placed.error?⟩

end Lexer

/-- Cut a text into tokens (`analyze`). There is always a list of tokens, with errors too. -/
def lex (o : LexicalOptions) (text : String) : Report (List Token) LexicalFault :=
  Lexer.report (Lexer.pieces o 0 text.toList)

end PixQuery
