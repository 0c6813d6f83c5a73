import PixQuery.Metadata.Lookup
import PixQuery.Text.Lowercase

/-!
# Matching names

A part of a path matches a name exactly, or without regard to case, or as a pattern in which `*`
stands for any run of characters and `?` for any one of them, line feeds excepted. Patterns have no
regard to case either, but compare character by character.

In the program `glob_to_regex` turns a pattern into a regular expression; here the pattern is
matched itself.
-/

namespace PixQuery

/-- What a name is compared with. -/
inductive Matcher where
  | exact (name : String)
  /-- A name in lower case. -/
  | plain (lowered : List Char)
  | pattern (pattern : List Char)
  deriving Repr, DecidableEq

namespace Matcher

/-- Whether a character of a pattern, which is no asterisk, stands for `c`. -/
def standsFor (p c : Char) : Bool := if p = '?' then c != '\n' else Text.fold p == Text.fold c

/-- From which places of `cs` on, the end included, the pattern `p :: ps` matches all that follows;
`later` says the same of `ps`. -/
def placesFrom (p : Char) : List Char → List Bool → List Bool
  | [], later => [p == '*' && later.headD false]
  | c :: cs, later =>
    let places := placesFrom p cs later.tail
    let here :=
      if p = '*' then later.headD false || (c != '\n' && places.headD false)
      else standsFor p c && later.tail.headD false
    here :: places

/-- From which places of `cs` on, the end included, a pattern matches all that follows. -/
def places (cs : List Char) : List Char → List Bool
  | [] => cs.map (fun _ => false) ++ [true]
  | p :: ps => placesFrom p cs (places cs ps)

/-- Whether a pattern matches a whole text (the expression of `glob_to_regex`). -/
def patternMatches (pattern cs : List Char) : Bool := (places cs pattern).headD false

/-- The matcher of a part of a path (`Matcher` from a `NamePart`). -/
def ofPart (part : NamePart) : Matcher :=
  if part.pattern then .pattern part.name.toList
  else if part.exact then .exact part.name
  else .plain (Text.lower part.name.toList)

/-- Whether one name matches. -/
def matchesOne (m : Matcher) (name : String) : Bool :=
  match m with
  | exact n => name == n
  | plain lowered => Text.lower name.toList == lowered
  | pattern p => patternMatches p name.toList

/-- Whether one of the names of an entity matches; other names never match exactly (`matches`). -/
def matchesNames (m : Matcher) (name : String) (otherNames : List String) : Bool :=
  match m with
  | exact _ => m.matchesOne name
  | plain _ | pattern _ => m.matchesOne name || otherNames.any m.matchesOne

end Matcher

end PixQuery
