import PixQuery.Token.Alphabet

/-!
# Writing strings so that they are read back

`quoted` puts a text between quotes, with a backslash before what would end it or break it.
`quotedIfNeeded` leaves a name alone that is read as one bare word anyway.
-/

namespace PixQuery

open Alphabet

/-- The letter that stands for `c` behind a backslash, when `c` cannot stand between two `quote`
characters as it is: a backslash, the quote itself, and line breaks and tabs. -/
def escapeLetter? (quote c : Char) : Option Char :=
  if c = '\\' ∨ c = quote ∨ c.toNat < 32 then
    (escapes.find? fun e => e.2 == c).map Prod.fst
  else none

/-- One character of a quoted text. -/
def quotedChar (quote c : Char) : List Char :=
  match escapeLetter? quote c with
  | some letter => ['\\', letter]
  | none => [c]

/-- A text between two `quote` characters (`quote`). -/
def quoted (quote : Char) (text : String) : String :=
  String.ofList (quote :: text.toList.flatMap (quotedChar quote) ++ [quote])

/-- Whether the characters are read as one bare word (the test of `quote_if_needed`). -/
def isBareWord : List Char → Bool
  | [] => false
  | c :: cs =>
    !forbiddenStart.contains c && (Symbol.ofChar? c).isNone &&
      (c :: cs).all fun d =>
        !spaces.contains d && (!significant.contains d || wordMiddle.contains d)

/-- A name as it is, if it is read as one bare word; else between quotes (`quote_if_needed`). -/
def quotedIfNeeded (quote : Char) (name : String) : String :=
  if isBareWord name.toList then name else quoted quote name

end PixQuery
