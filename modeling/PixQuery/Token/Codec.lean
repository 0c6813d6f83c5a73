import PixQuery.Diagnostic
import PixQuery.Token.Basic

/-!
# Tokens as documents
-/

namespace PixQuery

/-- A lexeme as a document: a string with its kind, or the name of a symbol. -/
def Lexeme.json : Lexeme → Json
  | string value kind =>
    .object [("type", .text "str"), ("value", .text value), ("kind", .text kind.name)]
  | symbol s => .object [("type", .text "symbol"), ("symbol", .text s.name)]

/-- A token as a document. -/
def Token.json (t : Token) : Json :=
  .object [("morpheme", t.lexeme.json), ("range", t.range.json)]

end PixQuery
