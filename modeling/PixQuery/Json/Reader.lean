import PixQuery.Json.Number

/-!
# Reading JSON

A text is first cut into tokens (`Json.tokens`), and the tokens are then read one by one by a
machine that keeps the arrays and objects it is inside of (`Reader.step`). A document is nested at
most 127 levels deep. `Json.parse?` answers `none` for a text that is not one document.
-/

namespace PixQuery.Json

/-! ## Tokens -/

/-- A token of a JSON text. Strings, numbers and the three words are tokens of their own. -/
inductive Token where
  | openArray
  | closeArray
  | openObject
  | closeObject
  | comma
  | colon
  | scalar (value : Json)

/-- The value of a hexadecimal digit. -/
def hexValue? (c : Char) : Option Nat :=
  if c.isDigit then some (c.toNat - 48)
  else if 97 ≤ c.toNat ∧ c.toNat ≤ 102 then some (c.toNat - 87)
  else if 65 ≤ c.toNat ∧ c.toNat ≤ 70 then some (c.toNat - 55)
  else none

/-- The number that four hexadecimal digits stand for. -/
def hex4? (a b c d : Char) : Option Nat := do
  return (((← hexValue? a) * 16 + (← hexValue? b)) * 16 + (← hexValue? c)) * 16 + (← hexValue? d)

/-- The character of a code unit that is no half of a pair. -/
def unitChar? (n : Nat) : Option Char :=
  if 0xD800 ≤ n ∧ n ≤ 0xDFFF then none else some (Char.ofNat n)

/-- The character that a high and a low half stand for together. -/
def pairChar? (high low : Nat) : Option Char :=
  if 0xD800 ≤ high ∧ high ≤ 0xDBFF ∧ 0xDC00 ≤ low ∧ low ≤ 0xDFFF then
    some (Char.ofNat (0x10000 + (high - 0xD800) * 0x400 + (low - 0xDC00)))
  else none

/-- The character that a backslash and `c` stand for. -/
def unescape? (c : Char) : Option Char :=
  match c with
  | '\x22' => some '\x22'
  | '\\' => some '\\'
  | '/' => some '/'
  | 'b' => some '\x08'
  | 'f' => some '\x0c'
  | 'n' => some '\n'
  | 'r' => some '\r'
  | 't' => some '\t'
  | _ => none

/-- Read the rest of a string behind its opening quote: its characters and what follows the closing
quote. `done` holds the characters read so far, the last one first. -/
def stringBody (done : List Char) : List Char → Option (List Char × List Char)
  | [] => none
  | '\x22' :: rest => some (done.reverse, rest)
  | '\\' :: 'u' :: a :: b :: c :: d :: '\\' :: 'u' :: e :: f :: g :: h :: rest =>
    match hex4? a b c d with
    | none => none
    | some n =>
      match unitChar? n with
      | some ch => stringBody (ch :: done) ('\\' :: 'u' :: e :: f :: g :: h :: rest)
      | none =>
        match (hex4? e f g h).bind (pairChar? n) with
        | some ch => stringBody (ch :: done) rest
        | none => none
  | '\\' :: 'u' :: a :: b :: c :: d :: rest =>
    match (hex4? a b c d).bind unitChar? with
    | some ch => stringBody (ch :: done) rest
    | none => none
  | '\\' :: c :: rest =>
    match unescape? c with
    | some ch => stringBody (ch :: done) rest
    | none => none
  | c :: rest => if c.toNat < 32 then none else stringBody (c :: done) rest
termination_by cs => cs.length

theorem stringBody_length {done cs s rest : List Char} (h : stringBody done cs = some (s, rest)) :
    rest.length < cs.length := by
  fun_induction stringBody done cs <;> simp_all <;> omega

/-- Whether `c` may stand in a number or a word. -/
def isWordChar (c : Char) : Bool :=
  c.isAlphanum || c == '-' || c == '+' || c == '.'

/-- Drop a run of digits that is not empty. -/
def skipDigits? (cs : List Char) : Option (List Char) :=
  match cs with
  | c :: rest => if c.isDigit then some (rest.dropWhile Char.isDigit) else none
  | [] => none

/-- Drop the digits before the point: a zero alone, or digits that begin with another one. -/
def skipWholePart? (cs : List Char) : Option (List Char) :=
  match cs with
  | '0' :: rest => some rest
  | _ => skipDigits? cs

/-- Drop the point and the digits behind it, when there is a point. -/
def skipFraction? (cs : List Char) : Option (List Char) :=
  match cs with
  | '.' :: rest => skipDigits? rest
  | _ => some cs

/-- Drop the exponent, when there is one. -/
def skipExponent? (cs : List Char) : Option (List Char) :=
  match cs with
  | 'e' :: '+' :: rest | 'e' :: '-' :: rest | 'E' :: '+' :: rest | 'E' :: '-' :: rest =>
    skipDigits? rest
  | 'e' :: rest | 'E' :: rest => skipDigits? rest
  | _ => some cs

/-- Whether the characters, the sign apart, are a number. -/
def isMagnitude (cs : List Char) : Bool :=
  match (skipWholePart? cs).bind fun r => (skipFraction? r).bind skipExponent? with
  | some [] => true
  | _ => false

/-- A number. It is whole when it is written without a point and an exponent and fits into 64 bits;
minus zero is not whole. A number that is too great is refused. -/
def number? (cs : List Char) : Option Json :=
  let decimal :=
    if (Decimal.ofLiteral cs).isTooGreat then none else some (.decimal (String.ofList cs))
  match cs with
  | '-' :: ds =>
    if !isMagnitude ds then none
    else if ds.all Char.isDigit && 0 < digitsValue ds &&
        Word.holdsInt 64 (-(digitsValue ds : Int)) then
      some (.whole (-(digitsValue ds : Int)))
    else decimal
  | ds =>
    if !isMagnitude ds then none
    else if ds.all Char.isDigit && Word.holdsNat 64 (digitsValue ds) then
      some (.whole (digitsValue ds))
    else decimal

/-- A number or one of the three words. -/
def word? (cs : List Char) : Option Json :=
  if cs = "null".toList then some .null
  else if cs = "true".toList then some (.bool true)
  else if cs = "false".toList then some (.bool false)
  else number? cs

/-- Cut a text into tokens. -/
def tokens : List Char → Option (List Token)
  | [] => some []
  | c :: cs =>
    match c with
    | ' ' | '\n' | '\r' | '\t' => tokens cs
    | '[' => (tokens cs).map (.openArray :: ·)
    | ']' => (tokens cs).map (.closeArray :: ·)
    | '\x7b' => (tokens cs).map (.openObject :: ·)
    | '\x7d' => (tokens cs).map (.closeObject :: ·)
    | ',' => (tokens cs).map (.comma :: ·)
    | ':' => (tokens cs).map (.colon :: ·)
    | '\x22' =>
      match h : stringBody [] cs with
      | none => none
      | some (s, rest) =>
        have := stringBody_length h
        (tokens rest).map (.scalar (.text (String.ofList s)) :: ·)
    | _ =>
      match word? (c :: cs.takeWhile isWordChar) with
      | none => none
      | some j => (tokens (cs.dropWhile isWordChar)).map (.scalar j :: ·)
termination_by cs => cs.length
decreasing_by
  all_goals
    have h_drop : (cs.dropWhile isWordChar).length ≤ cs.length :=
      (List.dropWhile_suffix isWordChar).length_le
    simp only [List.length_cons]
    omega

/-! ## Documents -/

/-- An array or object that is not closed yet; what it holds so far stands in reverse. -/
inductive Frame where
  | array (items : List Json)
  | object (members : List (String × Json)) (key : String)

/-- What the reader waits for. -/
inductive Await where
  /-- A value. -/
  | value
  /-- The first item of an array, or its end. -/
  | firstItem
  /-- The first key of an object, or its end. -/
  | firstKey
  /-- A key. -/
  | key (members : List (String × Json))
  /-- The colon behind a key. -/
  | colon (members : List (String × Json)) (key : String)
  /-- A comma, or the end of the innermost array or object. -/
  | next
  /-- Nothing more: the document is complete. -/
  | nothing (document : Json)

/-- The state of reading a document: the arrays and objects that are open, innermost first. -/
structure Reader where
  frames : List Frame
  await : Await

/-- A value is complete: it joins the innermost frame or is the document. -/
def Reader.complete (frames : List Frame) (value : Json) : Reader :=
  match frames with
  | [] => ⟨[], .nothing value⟩
  | .array items :: outer => ⟨.array (value :: items) :: outer, .next⟩
  | .object members key :: outer => ⟨.object ((key, value) :: members) key :: outer, .next⟩

/-- Open an array or object. One too many levels is refused. -/
def Reader.enter (frames : List Frame) (token : Token) : Option Reader :=
  if 127 ≤ frames.length then none
  else match token with
    | .openArray => some ⟨.array [] :: frames, .firstItem⟩
    | .openObject => some ⟨.object [] "" :: frames, .firstKey⟩
    | _ => none

/-- Read one token where a value may stand. -/
def Reader.value (frames : List Frame) (token : Token) : Option Reader :=
  match token with
  | .scalar j => some (complete frames j)
  | t => enter frames t

/-- Read one token. -/
def Reader.step (r : Reader) (token : Token) : Option Reader :=
  match r.await, token with
  | .value, t => value r.frames t
  | .firstItem, .closeArray => some (complete (r.frames.drop 1) (.array []))
  | .firstItem, t => value r.frames t
  | .firstKey, .closeObject => some (complete (r.frames.drop 1) (.object []))
  | .firstKey, .scalar (.text k) => some ⟨r.frames, .colon [] k⟩
  | .key ms, .scalar (.text k) => some ⟨r.frames, .colon ms k⟩
  | .colon ms k, .colon => some ⟨.object ms k :: r.frames.drop 1, .value⟩
  | .next, .comma =>
    match r.frames with
    | .array _ :: _ => some ⟨r.frames, .value⟩
    | .object ms _ :: _ => some ⟨r.frames, .key ms⟩
    | [] => none
  | .next, .closeArray =>
    match r.frames with
    | .array items :: outer => some (complete outer (.array items.reverse))
    | _ => none
  | .next, .closeObject =>
    match r.frames with
    | .object ms _ :: outer => some (complete outer (.object ms.reverse))
    | _ => none
  | _, _ => none

/-- The document that the tokens are. -/
def ofTokens? (ts : List Token) : Option Json :=
  match ts.foldlM Reader.step ⟨[], .value⟩ with
  | some ⟨_, .nothing j⟩ => some j
  | _ => none

/-- The document that a text is. Members keep the order in which they are written, and a key that
is written twice stands twice. -/
def parse? (s : String) : Option Json := (tokens s.toList).bind ofTokens?

/-! ## Repeated keys -/

/-- The members with each key once, at its first place and with its last value. -/
def lastValues (members : List (String × Json)) : List (String × Json) :=
  members.foldl
    (fun done m =>
      if done.any (fun d => d.1 == m.1) then
        done.map fun d => if d.1 == m.1 then m else d
      else done ++ [m]) []

mutual

/-- The document in which each object holds a key once: the last value wins. -/
def withoutRepeats : Json → Json
  | .array xs => .array (withoutRepeatsItems xs)
  | .object ms => .object (lastValues (withoutRepeatsMembers ms))
  | j => j

/-- `withoutRepeats` of every item. -/
def withoutRepeatsItems : List Json → List Json
  | [] => []
  | x :: xs => withoutRepeats x :: withoutRepeatsItems xs

/-- `withoutRepeats` of every value. -/
def withoutRepeatsMembers : List (String × Json) → List (String × Json)
  | [] => []
  | (k, v) :: ms => (k, withoutRepeats v) :: withoutRepeatsMembers ms

end

end PixQuery.Json
