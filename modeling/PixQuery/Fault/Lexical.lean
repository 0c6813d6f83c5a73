import PixQuery.Diagnostic

/-!
# What can go wrong while a text is cut into tokens

The codes of these faults are 1001 to 1004. The first two are errors; the last two are warnings.
-/

namespace PixQuery

/-- A fault in the spelling of a query (`LexicalError`). -/
inductive LexicalFault where
  /-- A run of characters that no token begins with. -/
  | unrecognized (text : String) (range : Span)
  /-- A quoted text that is still open at the end; `quote` is the mark it was opened with. -/
  | unterminated (quote : Char) (range : Span)
  /-- A backslash in a quoted text with nothing behind it. -/
  | escapeAtEnd (position : Nat)
  /-- A backslash before a character that needs none. -/
  | needlessEscape (escaped : Char) (position : Nat)
  deriving Repr, DecidableEq

namespace LexicalFault

/-- The code of the fault. -/
def code : LexicalFault → Nat
  | unrecognized .. => 1001
  | unterminated .. => 1002
  | escapeAtEnd .. => 1003
  | needlessEscape .. => 1004

/-- The fault in words. -/
def message : LexicalFault → String
  | unrecognized text _ => "unrecognized symbol '" ++ text ++ "'"
  | unterminated quote _ => "expected closing " ++ quote.toString ++ " before end of text"
  | escapeAtEnd _ => "expected an escaped character but reached end of text"
  | needlessEscape escaped _ => "normal character '" ++ escaped.toString ++ "' was escaped"

/-- Where the fault is. -/
def range : LexicalFault → Span
  | unrecognized _ range | unterminated _ range => range
  | escapeAtEnd position => .point position
  | needlessEscape _ position => .between position (position + 1)

/-- The characters the fault speaks of. -/
def info : LexicalFault → Option Json
  | unrecognized text _ => some (.text text)
  | unterminated quote _ => some (.text quote.toString)
  | needlessEscape escaped _ => some (.text escaped.toString)
  | escapeAtEnd _ => none

/-- The fault as it is shown. -/
def diagnostic (f : LexicalFault) : Diagnostic := ⟨f.code, f.message, some f.range, f.info⟩

/-- The same fault, `n` characters further right. -/
def shift (f : LexicalFault) (n : Nat) : LexicalFault :=
  match f with
  | unrecognized text range => unrecognized text (range.shift n)
  | unterminated quote range => unterminated quote (range.shift n)
  | escapeAtEnd position => escapeAtEnd (position + n)
  | needlessEscape escaped position => needlessEscape escaped (position + n)

end LexicalFault

end PixQuery
