import PixQuery.Word

/-!
# JSON values

A document is a tree of nulls, booleans, numbers, strings, arrays and objects. Whole numbers that
fit into 64 bits are kept apart from all other numbers, since identifiers, scores and sizes are
whole numbers and nothing else may stand in their place. An object keeps its members in the order
in which they are written, repetitions included.

Readers of records (`required`, `defaulted` and `optional`) answer `none` for a value that cannot be
read; they ignore members they do not know.
-/

namespace PixQuery

/-- A JSON document. -/
inductive Json where
  | null
  | bool (value : Bool)
  /-- A whole number between `-2 ^ 63` and `2 ^ 64 - 1`. -/
  | whole (value : Int)
  /-- Any other number, as it is written. -/
  | decimal (literal : String)
  | text (value : String)
  | array (items : List Json)
  | object (members : List (String × Json))
  deriving Repr, Inhabited, BEq

namespace Json

/-- A natural number as a document. -/
def ofNat (n : Nat) : Json := .whole n

/-- The texts as an array. -/
def ofTexts (xs : List String) : Json := .array (xs.map .text)

/-- `null` for nothing, else what `f` writes. -/
def ofOption {α : Type} (f : α → Json) : Option α → Json
  | none => .null
  | some a => f a

/-- What an object holds under a key. -/
inductive Member where
  | absent
  | present (value : Json)
  /-- The key is written more than once. -/
  | repeated

/-- Look a key up in the members of an object. -/
def member (members : List (String × Json)) (key : String) : Member :=
  match members.filter (fun m => m.1 == key) with
  | [] => .absent
  | [m] => .present m.2
  | _ => .repeated

/-- The members of an object. -/
def members? : Json → Option (List (String × Json))
  | .object ms => some ms
  | _ => none

/-- The items of an array. -/
def items? : Json → Option (List Json)
  | .array xs => some xs
  | _ => none

/-- A text. -/
def text? : Json → Option String
  | .text s => some s
  | _ => none

/-- A boolean. -/
def bool? : Json → Option Bool
  | .bool b => some b
  | _ => none

/-- A whole number of `bits` bits in two's complement. -/
def signed? (bits : Nat) : Json → Option Int
  | .whole i => if Word.holdsInt bits i then some i else none
  | _ => none

/-- A natural number. -/
def nat? : Json → Option Nat
  | .whole i => if 0 ≤ i then some i.toNat else none
  | _ => none

/-- A natural number of at most 64 bits. -/
def word64? (j : Json) : Option UInt64 :=
  j.nat?.bind fun n => if Word.holdsNat 64 n then some (UInt64.ofNat n) else none

/-- A whole number of 64 bits in two's complement. -/
def int64? (j : Json) : Option Int64 := (j.signed? 64).map Int64.ofInt

/-- `null` is read as nothing, and anything else by `read`. -/
def option? {α : Type} (read : Json → Option α) : Json → Option (Option α)
  | .null => some none
  | j => (read j).map some

/-- An array whose items are all read by `read`. -/
def arrayOf? {α : Type} (read : Json → Option α) (j : Json) : Option (List α) :=
  j.items?.bind fun xs => xs.mapM read

/-- A member that has to be there. -/
def required {α : Type} (read : Json → Option α) (ms : List (String × Json)) (key : String) :
    Option α :=
  match member ms key with
  | .present v => read v
  | .absent | .repeated => none

/-- A member that stands for `default` when it is not there. -/
def defaulted {α : Type} (read : Json → Option α) (default : α) (ms : List (String × Json))
    (key : String) : Option α :=
  match member ms key with
  | .present v => read v
  | .absent => some default
  | .repeated => none

/-- A member that may be missing or `null`. -/
def optional {α : Type} (read : Json → Option α) (ms : List (String × Json)) (key : String) :
    Option (Option α) :=
  defaulted (option? read) none ms key

end Json

end PixQuery
