import PixQuery.Span

/-!
# Tokens of a query

A query is a row of tokens: punctuation symbols and strings. A string is a bare word or a text
between quotes, and the kind of quotes says how it may be used: apostrophes and double quotes hold
free text, backticks hold a name that has to match exactly.
-/

namespace PixQuery

/-- A punctuation symbol. -/
inductive Symbol where
  | colon
  | gt
  | gte
  | lt
  | lte
  | tilde
  | tildePlus
  | tildeMinus
  | pipe
  | slash
  | amp
  | minus
  | plus
  | atSign
  | hash
  | dollar
  | caret
  | dot
  | dotDot
  | comma
  | lBracket
  | rBracket
  | lParen
  | rParen
  | lBrace
  | rBrace
  deriving Repr, DecidableEq, Inhabited

namespace Symbol

/-- The symbol that one character is (`from_char`). -/
def ofChar? : Char → Option Symbol
  | ':' => some colon
  | '>' => some gt
  | '<' => some lt
  | '~' => some tilde
  | '|' => some pipe
  | '/' => some slash
  | '&' => some amp
  | '-' => some minus
  | '+' => some plus
  | '@' => some atSign
  | '#' => some hash
  | '$' => some dollar
  | '^' => some caret
  | '.' => some dot
  | ',' => some comma
  | '[' => some lBracket
  | ']' => some rBracket
  | '(' => some lParen
  | ')' => some rParen
  | '\x7b' => some lBrace
  | '\x7d' => some rBrace
  | _ => none

/-- The symbol of two characters that begins with a symbol of one. -/
def extend? : Symbol → Char → Option Symbol
  | gt, '=' => some gte
  | lt, '=' => some lte
  | dot, '.' => some dotDot
  | tilde, '+' => some tildePlus
  | tilde, '-' => some tildeMinus
  | _, _ => none

/-- How the symbol is written (`as_str`). -/
def spelling : Symbol → String
  | colon => ":"
  | gt => ">"
  | gte => ">="
  | lt => "<"
  | lte => "<="
  | tilde => "~"
  | tildePlus => "~+"
  | tildeMinus => "~-"
  | pipe => "|"
  | slash => "/"
  | amp => "&"
  | minus => "-"
  | plus => "+"
  | atSign => "@"
  | hash => "#"
  | dollar => "$"
  | caret => "^"
  | dot => "."
  | dotDot => ".."
  | comma => ","
  | lBracket => "["
  | rBracket => "]"
  | lParen => "("
  | rParen => ")"
  | lBrace => "\x7b"
  | rBrace => "\x7d"

/-- The name of the symbol. -/
def name : Symbol → String
  | colon => "Colon"
  | gt => "Gt"
  | gte => "Gte"
  | lt => "Lt"
  | lte => "Lte"
  | tilde => "Tilde"
  | tildePlus => "TildePlus"
  | tildeMinus => "TildeMinus"
  | pipe => "Pipe"
  | slash => "Slash"
  | amp => "Amp"
  | minus => "Minus"
  | plus => "Plus"
  | atSign => "At"
  | hash => "Hash"
  | dollar => "Dollar"
  | caret => "Caret"
  | dot => "Dot"
  | dotDot => "DotDot"
  | comma => "Comma"
  | lBracket => "LBracket"
  | rBracket => "RBracket"
  | lParen => "LParen"
  | rParen => "RParen"
  | lBrace => "LBrace"
  | rBrace => "RBrace"

/-- A symbol of one character is written with that character. -/
theorem spelling_of_ofChar? {c : Char} {s : Symbol} (h : ofChar? c = some s) :
    s.spelling = String.singleton c := by
  unfold ofChar? at h
  split at h <;> first | (obtain rfl := Option.some.inj h; rfl) | simp at h

end Symbol

/-- How a string is written (`StrKind`). -/
inductive StringKind where
  /-- A bare word. -/
  | word
  /-- A text between apostrophes. -/
  | apostrophe
  /-- A text between double quotes. -/
  | doubleQuotes
  /-- A name between backticks. -/
  | backticks
  deriving Repr, DecidableEq, Inhabited

namespace StringKind

/-- Free text, as opposed to a name. -/
def isText : StringKind → Bool
  | apostrophe | doubleQuotes => true
  | word | backticks => false

/-- The string stands for itself alone: it is never a pattern, an alias or another spelling. -/
def isExact : StringKind → Bool
  | word => false
  | apostrophe | doubleQuotes | backticks => true

/-- The quotes around the string. -/
def quote? : StringKind → Option Char
  | word => none
  | apostrophe => some '\x27'
  | doubleQuotes => some '\x22'
  | backticks => some '\x60'

/-- The name of the kind. -/
def name : StringKind → String
  | word => "restricted"
  | apostrophe => "apostrophe"
  | doubleQuotes => "double-quotes"
  | backticks => "backticks"

end StringKind

/-- What a token is, wherever it stands (`Morpheme`). -/
inductive Lexeme where
  | string (value : String) (kind : StringKind)
  | symbol (symbol : Symbol)
  deriving Repr, DecidableEq, Inhabited

/-- A lexeme and the stretch of text it covers (`LexicalItem`). -/
structure Token where
  lexeme : Lexeme
  range : Span
  deriving Repr, DecidableEq, Inhabited

namespace Token

/-- The terminal of the grammar that the token is read as: every string is a `str`. -/
def terminal (t : Token) : String :=
  match t.lexeme with
  | .string .. => "str"
  | .symbol s => s.spelling

/-- What the token says: the value of a string, the spelling of a symbol. -/
def text (t : Token) : String :=
  match t.lexeme with
  | .string value _ => value
  | .symbol s => s.spelling

/-- The symbol, when the token is one. -/
def symbol? (t : Token) : Option Symbol :=
  match t.lexeme with
  | .string .. => none
  | .symbol s => some s

/-- The string, when the token is one. -/
def string? (t : Token) : Option (String × StringKind) :=
  match t.lexeme with
  | .string value kind => some (value, kind)
  | .symbol _ => none

/-- Where the token ends. -/
def stop (t : Token) : Nat := t.range.stopOrNext

/-- The same token, `n` characters further right. -/
def shift (t : Token) (n : Nat) : Token := { t with range := t.range.shift n }

end Token

end PixQuery
