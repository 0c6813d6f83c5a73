import PixQuery.Json.Basic

/-!
# Changes to single settings

A change of settings may leave a setting as it is, clear it, or give it a value. An absent value and
a cleared one are different things, which `Option` alone does not tell apart.

In the program a change is an `Opt`: `Unset`, `Null` or a value.
-/

namespace PixQuery

/-- What happens to a setting. -/
inductive Change (α : Type) where
  | keep
  | clear
  | set (value : α)
  deriving Repr, DecidableEq, Inhabited

namespace Change

variable {α β : Type}

/-- The setting is left alone (`is_unset`). -/
def isKeep : Change α → Bool
  | keep => true
  | clear | set _ => false

/-- Change the value that is set. -/
def map (f : α → β) : Change α → Change β
  | keep => keep
  | clear => clear
  | set a => set (f a)

/-- The value that is set (`into_option`). -/
def value? : Change α → Option α
  | keep | clear => none
  | set a => some a

/-- No value clears, and a value sets. -/
def ofOption : Option α → Change α
  | none => clear
  | some a => set a

/-- Change a setting that may be empty. -/
def mergeInto (c : Change α) (slot : Option α) : Option α :=
  match c with
  | keep => slot
  | clear => none
  | set a => some a

/-- Change a setting that is never empty: it cannot be cleared. -/
def assignTo (c : Change α) (slot : α) : α :=
  match c with
  | keep | clear => slot
  | set a => a

/-- Read a change: null clears, and what `read` reads sets. -/
def ofJson? (read : Json → Option α) (j : Json) : Option (Change α) :=
  (Json.option? read j).map ofOption

/-- A change as a document; what is not set is null. -/
def json (write : α → Json) (c : Change α) : Json := .ofOption write c.value?

end Change

end PixQuery
