import PixQuery.Token.Basic

/-!
# Characters of the query language

Which characters separate tokens, which have a meaning and which may stand in a bare word. With
`reflectFullWidth` the full-width forms of punctuation are read as their ASCII forms (`reflect?`),
and curly quotes open and close texts.
-/

namespace PixQuery

/-- How a text is cut into tokens. -/
structure LexicalOptions where
  /-- Full-width punctuation and curly quotes are read as their ASCII forms. -/
  reflectFullWidth : Bool
  /-- An underscore in a bare word stands for a space. -/
  underscoreAsSpace : Bool
  deriving Repr, DecidableEq

/-- Nothing is read as anything else. -/
instance : Inhabited LexicalOptions := ⟨⟨false, false⟩⟩

namespace Alphabet

/-- The characters that separate tokens and are otherwise ignored (`SPACES`). -/
def spaces : List Char := [' ', '\n', '\r', '\t']

/-- The letters that follow a backslash in a quoted text, and what they stand for (`ESCAPES`). -/
def escapes : List (Char × Char) :=
  [('n', '\n'), ('t', '\t'), ('r', '\r'), ('\x22', '\x22'), ('\x60', '\x60'), ('\x27', '\x27'),
    ('\\', '\\')]

/-- The ASCII characters with a meaning of their own (`SIGNIFICANT_SYMBOLS`). -/
def significant : List Char :=
  ['~', '\x60', '!', '@', '#', '$', '%', '^', '&', '*', '(', ')', '-', '=', '_', '+', '[', ']',
    '\x7b', '\x7d', ';', ':', '\x27', '\x22', ',', '.', '/', '\\', '|', '?', '<', '>']

/-- The significant characters that may stand in a bare word behind its first character
(`RESTRICTED_MIDDLE`). -/
def wordMiddle : List Char := ['_', '?', '*', '+', '-', '!']

/-- The characters that no token begins with (`DISALLOWED_START`). -/
def forbiddenStart : List Char := ['!', '%', '=', ';', '\\']

/-- Full-width punctuation and its ASCII forms (`FULL_WIDTH`). -/
def fullWidth : List (Char × Char) :=
  [('：', ':'), ('＞', '>'), ('＜', '<'), ('～', '~'), ('｜', '|'), ('／', '/'), ('＆', '&'),
    ('－', '-'), ('＋', '+'), ('＠', '@'), ('＃', '#'), ('＄', '$'), ('＾', '^'), ('。', '.'),
    ('，', ','), ('【', '['), ('】', ']'), ('（', '('), ('）', ')'), ('｛', '\x7b'), ('｝', '\x7d')]

/-- The value that a table of pairs holds for a character. -/
def find? (table : List (Char × Char)) (c : Char) : Option Char :=
  (table.find? fun e => e.1 == c).map Prod.snd

/-- The ASCII character that `c` is read as; `c` itself where nothing is reflected. -/
def reflect? (o : LexicalOptions) (c : Char) : Option Char :=
  if c.toNat < 128 then some c
  else if o.reflectFullWidth then find? fullWidth c
  else some c

/-- The symbol that `c` begins (`symbol_of`). -/
def symbol? (o : LexicalOptions) (c : Char) : Option Symbol := (reflect? o c).bind Symbol.ofChar?

/-- The kind of string that `c` opens, and the character that closes it (`string_bound`). -/
def quote? (o : LexicalOptions) (c : Char) : Option (StringKind × Char) :=
  if c = '\x27' then some (.apostrophe, '\x27')
  else if c = '\x22' then some (.doubleQuotes, '\x22')
  else if c = '\x60' then some (.backticks, '\x60')
  else if c = '“' ∧ o.reflectFullWidth = true then some (.doubleQuotes, '”')
  else if c = '‘' ∧ o.reflectFullWidth = true then some (.apostrophe, '’')
  else none

/-- Whether `c` ends a run of characters that no token begins with. -/
def isBoundary (o : LexicalOptions) (c : Char) : Bool :=
  spaces.contains c || (symbol? o c).isSome || (quote? o c).isSome

/-- Whether `c` ends a bare word (`ends_restricted`). -/
def endsWord (o : LexicalOptions) (c : Char) : Bool :=
  let d := (reflect? o c).getD c
  spaces.contains c || (significant.contains d && !wordMiddle.contains d)

end Alphabet

end PixQuery
