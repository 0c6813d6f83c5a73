/-!
# Rounding to 53 binary digits

Sizes are computed with numbers of 53 binary digits. `Binary64.ofRatio` rounds a ratio to the
nearest of them, and a ratio halfway between two of them to the one with the even last digit. The
exponent has no bounds: where it matters here, neither very large nor very small numbers survive.
-/

namespace PixQuery

/-- The number `digits * 2 ^ exponent`. -/
structure Binary64 where
  digits : Nat
  exponent : Int
  deriving Repr, DecidableEq

namespace Binary64

/-- The numerator of a number over `denominator`. -/
def numerator (x : Binary64) : Nat := x.digits * Nat.pow 2 x.exponent.toNat

/-- The denominator of a number: a power of two. -/
def denominator (x : Binary64) : Nat := Nat.pow 2 (-x.exponent).toNat

/-- The whole number nearest to a ratio; of two the even one. -/
def nearestEven (num den : Nat) : Nat :=
  let quotient := num / den
  let rest := num % den
  if 2 * rest < den then quotient
  else if den < 2 * rest then quotient + 1
  else if quotient % 2 = 0 then quotient else quotient + 1

/-- A ratio with the digits rounded at `2 ^ exponent`. -/
def atExponent (num den : Nat) (exponent : Int) : Binary64 :=
  ⟨nearestEven (num * Nat.pow 2 (-exponent).toNat) (den * Nat.pow 2 exponent.toNat), exponent⟩

/-- Whether a ratio is at least `2 ^ exponent`. -/
def atLeastPower (num den : Nat) (exponent : Int) : Bool :=
  den * Nat.pow 2 exponent.toNat ≤ num * Nat.pow 2 (-exponent).toNat

/-- The number of 53 binary digits nearest to a ratio. -/
def ofRatio (num den : Nat) : Binary64 :=
  if num = 0 then ⟨0, 0⟩
  else
    let guess : Int := (num.log2 : Int) - (den.log2 : Int)
    let top := if atLeastPower num den guess then guess else guess - 1
    atExponent num den (top - 52)

/-- The number nearest to the product with a whole number. -/
def timesNat (x : Binary64) (n : Nat) : Binary64 := ofRatio (x.numerator * n) x.denominator

/-- Whether the number is greater than a whole number. -/
def exceeds (x : Binary64) (n : Nat) : Bool := n * x.denominator < x.numerator

/-- The whole number nearest to the number; of two the greater. -/
def round (x : Binary64) : Nat := (2 * x.numerator + x.denominator) / (2 * x.denominator)

end Binary64

end PixQuery
