import PixQuery.Text.Integer

/-!
# Calendar days

Days of the proleptic Gregorian calendar, from the year -9999 to the year 9999. A day is written as
`2024-02-29`; the year has four digits, and a minus before them when it is negative.
-/

namespace PixQuery

/-- Whether February has 29 days. -/
def isLeapYear (year : Int) : Bool := year % 4 == 0 && (year % 100 != 0 || year % 400 == 0)

/-- How many days a month has; there are twelve months. -/
def daysInMonth (year : Int) (month : Nat) : Nat :=
  match month with
  | 1 | 3 | 5 | 7 | 8 | 10 | 12 => 31
  | 4 | 6 | 9 | 11 => 30
  | 2 => if isLeapYear year then 29 else 28
  | _ => 0

/-- Whether there is such a day. -/
def isDay (year : Int) (month day : Nat) : Bool :=
  -9999 ≤ year && year ≤ 9999 && 1 ≤ day && day ≤ daysInMonth year month

/-- A day of the calendar. -/
structure Date where
  year : Int
  month : Nat
  day : Nat
  valid : isDay year month day = true
  deriving Repr, DecidableEq

namespace Date

instance : Inhabited Date := ⟨⟨2000, 1, 1, rfl⟩⟩

/-- The day with these numbers, if there is one. -/
def of? (year month day : Int) : Option Date :=
  if h : isDay year month.toNat day.toNat = true then
    if 0 ≤ month ∧ 0 ≤ day then some ⟨year, month.toNat, day.toNat, h⟩ else none
  else none

/-- Whether a day comes before another. -/
def isBefore (a b : Date) : Bool :=
  a.year < b.year ||
    (a.year == b.year && (a.month < b.month || (a.month == b.month && a.day < b.day)))

/-! ## Writing -/

/-- A number in at least `width` digits. -/
def digits (width n : Nat) : List Char :=
  let ds := (toString n).toList
  List.replicate (width - ds.length) '0' ++ ds

/-- The day as it is written (`format_date`). -/
def text (d : Date) : String :=
  String.ofList
    ((if d.year < 0 then ['-'] else []) ++ digits 4 d.year.natAbs ++ '-' :: digits 2 d.month ++
      '-' :: digits 2 d.day)

/-! ## Reading what was written -/

/-- Read the digits of a day behind the sign of the year. -/
def ofDigits? (sign : Int) (cs : List Char) : Option Date :=
  match cs with
  | [a, b, c, d, '-', e, f, '-', g, h] => do
    let year ← Text.natural? [a, b, c, d]
    let month ← Text.natural? [e, f]
    let day ← Text.natural? [g, h]
    of? (sign * year) month day
  | _ => none

/-- Read a day in the form in which it is written; a plus before the year is read over. -/
def ofText? (s : String) : Option Date :=
  match s.toList with
  | '-' :: cs => ofDigits? (-1) cs
  | '+' :: cs => ofDigits? 1 cs
  | cs => ofDigits? 1 cs

end Date

end PixQuery
