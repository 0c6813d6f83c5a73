import PixQuery.Json.Basic
import PixQuery.Text.Blank

/-!
# Sets of flags

A set of flags is a word of 32 bits. A family of flags gives names to single bits and to
combinations of them; bits without a name are kept. The text of a set is its names, joined by ` | `,
and what bits are left over as a hexadecimal number.

In the program the families are the bit sets `TagFlags`, `MetaTarget` and `Tagme`.
-/

namespace PixQuery

/-- The families of flags. -/
inductive FlagFamily where
  /-- What a tag is for. -/
  | tag
  /-- What a topic or an author is. -/
  | target
  /-- What an image still waits for. -/
  | tagme
  deriving Repr, DecidableEq

/-- The flags of a family and their bits: single bits first, then combinations. -/
def FlagFamily.flags : FlagFamily → List (String × UInt32)
  | tag =>
    [("ADDRESS", 1), ("VIRTUAL", 2), ("GROUP", 4), ("SEQUENCE", 8), ("FORCE", 16),
      ("VIRTUAL_ADDRESS", 3), ("SEQUENCE_GROUP", 12), ("FORCE_GROUP", 20),
      ("FORCE_SEQUENCE_GROUP", 28)]
  | target =>
    [("TAG", 1), ("ARTIST", 2), ("STUDIO", 4), ("PUBLISH", 8), ("COPYRIGHT", 16), ("IP", 32),
      ("CHARACTER", 64), ("AUTHOR", 14), ("TOPIC", 112)]
  | tagme => [("TAG", 1), ("AUTHOR", 2), ("TOPIC", 4), ("SOURCE", 8)]

/-- A set of flags of a family. -/
structure Flags (family : FlagFamily) where
  bits : UInt32
  deriving Repr, DecidableEq, Inhabited

/-- The flags of a tag. -/
abbrev TagFlags := Flags .tag

/-- The flags of a topic or an author (`MetaTarget`). -/
abbrev Targets := Flags .target

/-- The flags of what an image waits for. -/
abbrev Tagme := Flags .tagme

/-- How many bits of a word are set. -/
def popCount (w : UInt32) : Nat := (List.range 32).countP fun i => w.toNat.testBit i

/-- The names of the single bits of a family. -/
def FlagFamily.singles (family : FlagFamily) : List (String × UInt32) :=
  family.flags.filter fun f => popCount f.2 == 1

/-- The combinations of a family, those of more bits first. -/
def FlagFamily.combinations (family : FlagFamily) : List (String × UInt32) :=
  (family.flags.filter fun f => 1 < popCount f.2).mergeSort fun a b => popCount b.2 ≤ popCount a.2

namespace Flags

variable {family : FlagFamily}

/-- No flag. -/
def empty : Flags family := ⟨0⟩

/-- Every flag of `b` is in `a`. -/
def contains (a b : Flags family) : Bool := a.bits &&& b.bits == b.bits

/-- Some flag is in both. -/
def intersects (a b : Flags family) : Bool := a.bits &&& b.bits != 0

/-- The flags in one of the two. -/
def union (a b : Flags family) : Flags family := ⟨a.bits ||| b.bits⟩

/-- The flags in both. -/
def inter (a b : Flags family) : Flags family := ⟨a.bits &&& b.bits⟩

/-- The flags in one of the sets. -/
def unionAll (fs : List (Flags family)) : Flags family := fs.foldl union empty

/-- The flag or combination with exactly this name. -/
def ofName? (name : String) : Option (Flags family) :=
  (family.flags.find? fun f => f.1 == name).map fun f => ⟨f.2⟩

/-- The flag or combination with this name; the case of ASCII letters is ignored where no name
matches exactly (`parse_flag`). -/
def ofTypedName? (name : String) : Option (Flags family) :=
  match ofName? name with
  | some f => some f
  | none => (family.flags.find? fun f => Text.sameAscii f.1 name).map fun f => ⟨f.2⟩

/-! ## Names -/

/-- The names of the single bits of the family. -/
def baseNames (family : FlagFamily) : List String := family.singles.map Prod.fst

/-- The names of those `flags` that lie in `rest`; each takes its bits away from those behind it. -/
def consume (rest : UInt32) : List (String × UInt32) → List String
  | [] => []
  | (name, bits) :: flags =>
    if rest &&& bits == bits then name :: consume (rest &&& ~~~bits) flags else consume rest flags

/-- Names for a set as it is shown: the widest combinations that lie in it, then single bits
(`exported_names`). -/
def shownNames (f : Flags family) : List String :=
  consume f.bits (family.combinations ++ family.singles)

/-! ## Text -/

/-- The names of those flags of `whole` that still have a bit in `rest`, and the bits left over. -/
def written (whole rest : UInt32) : List (String × UInt32) → List String × UInt32
  | [] => ([], rest)
  | (name, bits) :: flags =>
    if whole &&& bits == bits && rest &&& bits != 0 then
      let (names, left) := written whole (rest &&& ~~~bits) flags
      (name :: names, left)
    else written whole rest flags

/-- A number in lower-case hexadecimal digits behind `0x`. -/
def hexText (n : Nat) : String := "0x" ++ String.ofList (Nat.toDigits 16 n)

/-- The text of a set: its names, and the bits left over as a number. -/
def text (f : Flags family) : String :=
  let (names, left) := written f.bits f.bits family.flags
  " | ".intercalate (names ++ if left == 0 then [] else [hexText left.toNat])

/-- The value of a hexadecimal digit of either case. -/
def hexDigit? (c : Char) : Option Nat :=
  if c.isDigit then some (c.toNat - 48)
  else if 97 ≤ c.toNat ∧ c.toNat ≤ 102 then some (c.toNat - 87)
  else if 65 ≤ c.toNat ∧ c.toNat ≤ 70 then some (c.toNat - 55)
  else none

/-- The value of hexadecimal digits, read from the left on from `n`. -/
def hexFrom? (n : Nat) : List Char → Option Nat
  | [] => some n
  | c :: cs => (hexDigit? c).bind fun d => hexFrom? (16 * n + d) cs

/-- A word of 32 bits in hexadecimal digits, with or without a plus. -/
def hexWord? (cs : List Char) : Option UInt32 :=
  let digits := match cs with
    | '+' :: ds => ds
    | ds => ds
  if digits.isEmpty then none
  else (hexFrom? 0 digits).bind fun n => if Word.holdsNat 32 n then some (UInt32.ofNat n) else none

/-- One part of the text of a set: a name, or a hexadecimal number behind `0x`. -/
def ofPart? (part : List Char) : Option (Flags family) :=
  match part with
  | '0' :: 'x' :: digits => (hexWord? digits).map fun w => ⟨w⟩
  | name => ofName? (String.ofList name)

/-- Read the text of a set: parts between bars, none for a blank text. A part that is empty or
unknown is refused. -/
def ofText? (s : String) : Option (Flags family) :=
  if (Text.trim s.toList).isEmpty then some empty
  else ((Text.splitAt '|' s.toList).mapM fun part => ofPart? (Text.trim part)).map unionAll

/-- Read a set from a document. -/
def ofJson? (j : Json) : Option (Flags family) := j.text?.bind ofText?

/-- A set as a document. -/
def json (f : Flags family) : Json := .text f.text

end Flags

namespace TagFlags

/-- The tag groups others. -/
def isGroup (f : TagFlags) : Bool := f.contains ⟨4⟩

/-- The tag groups others, in an order. -/
def isSequenceGroup (f : TagFlags) : Bool := f.contains ⟨12⟩

/-- The tag may stand in a path before its end. -/
def isAddress (f : TagFlags) : Bool := f.contains ⟨1⟩

end TagFlags

namespace Targets

/-- Some flag of an author is set. -/
def isAuthor (f : Targets) : Bool := f.intersects ⟨14⟩

/-- Some flag of a topic is set. -/
def isTopic (f : Targets) : Bool := f.intersects ⟨112⟩

end Targets

end PixQuery
