import PixQuery.Diagnostic

/-!
# What can go wrong while tokens are parsed

The codes of these faults are 2001 and 2002. Both name the terminals that could have stood where
the parser stopped.
-/

namespace PixQuery

/-- A place where the tokens leave the grammar (`GrammarError`). -/
inductive SyntaxFault where
  /-- A token that cannot stand where it is. -/
  | unexpectedToken (token : String) (expected : List String) (range : Span)
  /-- The tokens end before they are a sentence. -/
  | unexpectedEnd (expected : List String) (position : Nat)
  deriving Repr, DecidableEq

namespace SyntaxFault

/-- The code of the fault. -/
def code : SyntaxFault → Nat
  | unexpectedToken .. => 2001
  | unexpectedEnd .. => 2002

/-- The fault in words. -/
def message : SyntaxFault → String
  | unexpectedToken token expected _ =>
    "unexpected token '" ++ token ++ "', expected one of: " ++ " ".intercalate expected
  | unexpectedEnd expected _ =>
    "unexpected end of text, expected one of: " ++ " ".intercalate expected

/-- Where the fault is; the end of the text is a single position. -/
def range : SyntaxFault → Span
  | unexpectedToken _ _ range => range
  | unexpectedEnd _ position => .point position

/-- The token and the terminals that were expected. -/
def info : SyntaxFault → Json
  | unexpectedToken token expected _ =>
    .object [("actual", .text token), ("expected", .ofTexts expected)]
  | unexpectedEnd expected _ => .object [("expected", .ofTexts expected)]

/-- The fault as it is shown. -/
def diagnostic (f : SyntaxFault) : Diagnostic := ⟨f.code, f.message, some f.range, some f.info⟩

end SyntaxFault

end PixQuery
