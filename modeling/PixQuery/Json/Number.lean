import PixQuery.Json.Basic
import PixQuery.Value.Binary64

/-!
# Numbers in documents

A number is a row of digits, with or without a point and an exponent. It stands for the nearest
number of 53 binary digits below `2 ^ 1024`, so `1.0` and `1e2` are whole numbers too.
-/

namespace PixQuery.Json

/-- The number `digits * 10 ^ exponent`, or its opposite. -/
structure Decimal where
  negative : Bool
  digits : Nat
  exponent : Int
  deriving Repr, DecidableEq

/-- The value of a run of decimal digits. -/
def digitsValue (cs : List Char) : Nat := cs.foldl (fun n c => 10 * n + (c.toNat - 48)) 0

/-- The value of digits with or without a sign. -/
def signedValue : List Char → Int
  | '-' :: ds => -(digitsValue ds : Int)
  | '+' :: ds => digitsValue ds
  | ds => digitsValue ds

namespace Decimal

/-- The number that a literal is; its digits are taken for granted. -/
def ofLiteral (cs : List Char) : Decimal :=
  let magnitude := if cs.head? = some '-' then cs.tail else cs
  let isMark (c : Char) : Bool := c == 'e' || c == 'E'
  let mantissa := magnitude.takeWhile fun c => !isMark c
  let power := signedValue ((magnitude.dropWhile fun c => !isMark c).drop 1)
  let fraction := (mantissa.dropWhile Char.isDigit).drop 1
  ⟨cs.head? = some '-', digitsValue (mantissa.filter Char.isDigit), power - fraction.length⟩

/-- The exponent of the power of ten right above the number. -/
def top (d : Decimal) : Int := (Nat.toDigits 10 d.digits).length + d.exponent

/-- The nearest number of 53 binary digits, the sign apart. The smallest ones are zero. -/
def rounded (d : Decimal) : Binary64 :=
  if d.digits = 0 ∨ d.top < -400 then ⟨0, 0⟩
  else
    let num := d.digits * Nat.pow 10 d.exponent.toNat
    let den := Nat.pow 10 (-d.exponent).toNat
    if num * Nat.pow 2 1075 ≤ den then ⟨0, 0⟩ else .ofRatio num den

/-- Whether the number is too great for a document. -/
def isTooGreat (d : Decimal) : Bool :=
  d.digits != 0 && (400 < d.top || (d.rounded.exceeds (Nat.pow 2 1024 - 1)))

/-- Whether the rounded number is whole. -/
def isWhole (d : Decimal) : Bool := d.rounded.numerator % d.rounded.denominator == 0

/-- Whether the rounded number is less than zero. -/
def isBelowZero (d : Decimal) : Bool := d.negative && d.rounded.numerator != 0

end Decimal

/-- Whether the document is a whole number, however it is written. -/
def isInteger : Json → Bool
  | .whole _ => true
  | .decimal literal => (Decimal.ofLiteral literal.toList).isWhole
  | _ => false

/-- Whether the document is a whole number that is not less than zero. -/
def isNatural : Json → Bool
  | .whole i => 0 ≤ i
  | .decimal literal =>
    let d := Decimal.ofLiteral literal.toList
    d.isWhole && !d.isBelowZero
  | _ => false

end PixQuery.Json
