import PixQuery.Text.Blank

/-!
# Tables of typed names

A key of the query language has one or more names that an author may type, such as `score` and `s`.
A name may be reserved for items with the source mark `^`. The first name of a key is the one it is
written with.

In the program an entry is a `FieldAlias`, and `find`, `knows`, `preferred` and `all_names` look
into a table of them.
-/

namespace PixQuery

/-- A name that may be typed for a key; with `source` it only counts behind the source mark. -/
structure Alias where
  name : String
  source : Bool
  deriving Repr, DecidableEq, Inhabited

namespace Alias

/-- A name for items without the source mark. -/
def plain (name : String) : Alias := ⟨name, false⟩

/-- A name for items with the source mark. -/
def sourced (name : String) : Alias := ⟨name, true⟩

/-- Whether `name`, typed with or without the source mark, is this alias (`matches`). -/
def isTyped (a : Alias) (name : String) (source : Bool) : Bool :=
  a.source == source && Text.sameAscii a.name name

/-- The alias as it is typed, with its mark (`display`). -/
def text (a : Alias) : String := if a.source then "^" ++ a.name else a.name

end Alias

/-- The names of one key: the preferred one, and the others (`FieldAlias`). -/
structure AliasEntry (κ : Type) where
  key : κ
  preferred : Alias
  others : List Alias
  deriving Repr

namespace AliasEntry

variable {κ : Type}

/-- All names of the key, the preferred one first. -/
def names (e : AliasEntry κ) : List Alias := e.preferred :: e.others

/-- The key that is meant by a typed name. -/
def find? (table : List (AliasEntry κ)) (name : String) (source : Bool) : Option κ :=
  (table.find? fun e => e.names.any fun a => a.isTyped name source).map AliasEntry.key

/-- Whether some key has this name, with or without the source mark. -/
def knows (table : List (AliasEntry κ)) (name : String) : Bool :=
  table.any fun e => e.names.any fun a => Text.sameAscii a.name name

/-- The preferred name of a key. -/
def preferred? [DecidableEq κ] (table : List (AliasEntry κ)) (key : κ) : Option Alias :=
  (table.find? fun e => e.key = key).map AliasEntry.preferred

/-- All names of a table, with their marks. -/
def allNames (table : List (AliasEntry κ)) : List String :=
  table.flatMap fun e => e.names.map Alias.text

end AliasEntry

end PixQuery
