import PixQuery.Fault.Semantic
import PixQuery.Flags
import PixQuery.Text.Integer
import PixQuery.Value.Binary64
import PixQuery.Value.Date

/-!
# Reading values

A value is written as a string, and the type of its field says how it is read. Some literals stand
for many values: a month for its days, `12??` for the numbers from 1200 to 1299. Such a literal is
read as a span that does not hold its end.

In the program these are `number`, `pattern_number`, `size`, `date` and `tagme`.
-/

namespace PixQuery

/-- What a literal stands for: one value, or all values from `first` up to, and without, `stop`
(`Complex`). -/
inductive Extent (α : Type) where
  | one (value : α)
  | span (first stop : α)
  deriving Repr, DecidableEq

/-- A number, a span of numbers, or a pattern that is compared with the digits of numbers. -/
inductive PatternNumber where
  | extent (extent : Extent Int64)
  | pattern (pattern : String)
  deriving Repr, DecidableEq

namespace Value

/-- The fault of a text that is no value of a type (`cast_error`). -/
def castFault (text expected : String) (range : Span) : SemanticFault :=
  ⟨.typeCast text expected, range⟩

/-- What is read, or the fault of a text that is no value of a type. -/
def orCastFault {α : Type} (text expected : String) (range : Span) (value : Option α) :
    Except SemanticFault α :=
  match value with
  | some a => .ok a
  | none => .error (castFault text expected range)

/-- Whether `c` stands for other characters in a pattern. -/
def isWildcard (c : Char) : Bool := c == '*' || c == '?'

/-- Whether a text holds an asterisk or a question mark. -/
def isPattern (text : String) : Bool := text.toList.any isWildcard

/-! ## Numbers -/

/-- A number of 64 bits with a sign. -/
def number? (cs : List Char) : Option Int64 := (Text.signed? 64 cs).map Int64.ofInt

/-- Read a number. -/
def number (text : String) (range : Span) : Except SemanticFault Int64 :=
  orCastFault text "number" range (number? text.toList)

/-- A number of 64 bits, when it is not too large. -/
def int64? (n : Nat) : Option Int64 := if Word.holdsInt 64 n then some (Int64.ofInt n) else none

/-- The numbers that begin with the digits and have `places` more of them. -/
def decade? (digits : List Char) (places : Nat) : Option (Extent Int64) := do
  let n ← Text.natural? digits
  let _ ← int64? n
  let _ ← if places < 20 then int64? (Nat.pow 10 places) else none
  let first ← int64? (n * Nat.pow 10 places)
  let stop ← int64? ((n + 1) * Nat.pow 10 places)
  return .span first stop

/-- Read a number, a span such as `12??`, or a pattern of digits, asterisks and question marks. -/
def patternNumber (text : String) (range : Span) : Except SemanticFault PatternNumber :=
  let cs := text.toList
  if !(cs.all fun c => c.isDigit || isWildcard c) || !isPattern text then
    (number text range).map fun n => .extent (.one n)
  else
    let places := (cs.reverse.takeWhile fun c => c == '?').length
    let digits := cs.take (cs.length - places)
    if digits.isEmpty || !digits.all Char.isDigit then .ok (.pattern text)
    else (orCastFault text "number" range (decade? digits places)).map .extent

/-! ## Sizes -/

/-- How many bytes a unit of size has. -/
def unitSize? (unit : String) : Option Nat :=
  match unit with
  | "" | "b" => some 1
  | "k" | "kb" => some 1_000
  | "m" | "mb" => some 1_000_000
  | "g" | "gb" => some 1_000_000_000
  | "t" | "tb" => some 1_000_000_000_000
  | "kib" => some 0x400
  | "mib" => some 0x100000
  | "gib" => some 0x40000000
  | "tib" => some 0x10000000000
  | _ => none

/-- A decimal number without a sign, rounded to 53 binary digits. There is a digit before or behind
the point. -/
def decimal? (cs : List Char) : Option Binary64 :=
  let whole := cs.takeWhile Char.isDigit
  match cs.dropWhile Char.isDigit with
  | [] => (Text.natural? whole).map fun n => .ofRatio n 1
  | '.' :: fraction =>
    (Text.natural? (whole ++ fraction)).map fun n => .ofRatio n (Nat.pow 10 fraction.length)
  | _ => none

/-- The bytes of an amount of units: at most `2 ^ 64`, and one less where it is just that. -/
def bytes? (amount : Binary64) (unit : Nat) : Option UInt64 :=
  let bytes := amount.timesNat unit
  if bytes.exceeds (Word.size 64) then none
  else some (UInt64.ofNat (min bytes.round (Word.size 64 - 1)))

/-- A size: a decimal number with or without a unit, in letters of either case. -/
def size? (cs : List Char) : Option UInt64 := do
  let cs := cs.map Char.toLower
  let isAmount (c : Char) : Bool := c.isDigit || c == '.'
  let unit ← unitSize? (String.ofList (cs.dropWhile isAmount))
  let amount ← decimal? (cs.takeWhile isAmount)
  bytes? amount unit

/-- Read a size. -/
def size (text : String) (range : Span) : Except SemanticFault UInt64 :=
  orCastFault text "size" range (size? text.toList)

/-! ## Dates -/

/-- The days of a month. -/
def monthSpan? (year month : Int) : Option (Extent Date) := do
  let first ← Date.of? year month 1
  let stop ← if first.month = 12 then Date.of? (year + 1) 1 1 else Date.of? year (month + 1) 1
  return .span first stop

/-- The days of a year. -/
def yearSpan? (year : Int) : Option (Extent Date) := do
  return .span (← Date.of? year 1 1) (← Date.of? (year + 1) 1 1)

/-- Whether `c` separates the parts of a date. -/
def isDateSeparator (c : Char) : Bool := c == '-' || c == '/' || c == '.'

/-- Cut a text at its first `n` separators. -/
def dateParts : (n : Nat) → List Char → List (List Char)
  | 0, cs => [cs]
  | n + 1, cs =>
    match cs.dropWhile fun c => !isDateSeparator c with
    | [] => [cs]
    | _ :: rest => (cs.takeWhile fun c => !isDateSeparator c) :: dateParts n rest

/-- The day or the span of days that the parts of a date stand for. A first part from 1000 on is a
year, and so is the first of three; otherwise it is a month of the current year. -/
def ofDateParts? (currentYear : Int) : List Int → Option (Extent Date)
  | [y, m, d] => (Date.of? y m d).map .one
  | [a, b] => if 1000 ≤ a then monthSpan? a b else (Date.of? currentYear a b).map .one
  | [a] => if 1000 ≤ a then yearSpan? a else monthSpan? currentYear a
  | _ => none

/-- A date of one, two or three numbers. -/
def date? (currentYear : Int) (cs : List Char) : Option (Extent Date) :=
  ((dateParts 2 cs).mapM (Text.signed? 32)).bind (ofDateParts? currentYear)

/-- Read a date. -/
def date (currentYear : Int) (text : String) (range : Span) :
    Except SemanticFault (Extent Date) :=
  orCastFault text "date" range (date? currentYear text.toList)

/-! ## What an image waits for -/

/-- Read a flag of what an image waits for. -/
def tagme (text : String) (range : Span) : Except SemanticFault Tagme :=
  match (Flags.ofTypedName? text : Option Tagme) with
  | some f => .ok f
  | none =>
    .error
      ⟨.enumCast text "tagme" ((Flags.baseNames .tagme).map fun n => n.map Char.toLower), range⟩

end Value

end PixQuery
