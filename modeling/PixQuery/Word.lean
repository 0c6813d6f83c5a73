/-!
# Words of bits

Whole numbers that other programs keep in words of a fixed size have bounds. `Word.size` counts the
values of a word; a signed word has as many values below zero as from zero on.
-/

namespace PixQuery.Word

/-- How many values a word of `bits` bits has. -/
def size (bits : Nat) : Nat := Nat.pow 2 bits

/-- Whether a word without a sign has the value `n`. -/
def holdsNat (bits n : Nat) : Bool := n < size bits

/-- Whether a word with a sign, in two's complement, has the value `i`. -/
def holdsInt (bits : Nat) (i : Int) : Bool := -(size (bits - 1) : Int) ≤ i && i < size (bits - 1)

end PixQuery.Word
