import PixQuery.Word

/-!
# Reading whole numbers

A whole number is written in ASCII digits. A sign may stand before them; a number without a sign of
its own takes a plus only. Numbers outside the bounds are refused, never wrapped.
-/

namespace PixQuery.Text

/-- The value of the digits, read from the left on from `n`. -/
def digitsFrom (n : Nat) (cs : List Char) : Nat := cs.foldl (fun n c => 10 * n + (c.toNat - 48)) n

/-- The value of a run of digits that is not empty. -/
def natural? (cs : List Char) : Option Nat :=
  if !cs.isEmpty && cs.all Char.isDigit then some (digitsFrom 0 cs) else none

/-- A number of at most `bits` bits, with or without a plus. -/
def unsigned? (bits : Nat) (cs : List Char) : Option Nat :=
  let digits := match cs with
    | '+' :: ds => ds
    | ds => ds
  (natural? digits).bind fun n => if Word.holdsNat bits n then some n else none

/-- A whole number, with or without a sign. -/
def integer? (cs : List Char) : Option Int :=
  match cs with
  | '-' :: ds => (natural? ds).map fun n => -(n : Int)
  | '+' :: ds => (natural? ds).map fun n => (n : Int)
  | ds => (natural? ds).map fun n => (n : Int)

/-- A number of `bits` bits in two's complement, with or without a sign. -/
def signed? (bits : Nat) (cs : List Char) : Option Int :=
  (integer? cs).bind fun i => if Word.holdsInt bits i then some i else none

end PixQuery.Text
