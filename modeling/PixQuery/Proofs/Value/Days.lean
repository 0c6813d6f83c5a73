import Mathlib.Data.List.Basic
import PixQuery.Proofs.Value.Literals

/-!
# Days are read back from their texts

A day is written with a year of four digits, and is read as that day whatever the current year is.
Days before the year zero are an exception: the minus before the year would be read as a separator.
Such a day is never typed, as the parts of a date have no sign; it takes a current year before the
year zero to mean one. Documents hold days in one form only, in which the minus belongs to the year.

Results:
* `Date.ofText?_text`: all days are read from their texts in documents.
* `Value.date?_text`: days from the year zero on are read from their texts.
* `Value.date?_text_of_neg`: other days are not.
* `Value.date_text`: both, with the fault where a day is not read.
* `Value.all_date?`: what is read lies in the year zero or later if the current year does.
-/

namespace PixQuery

namespace Date

/-! ## The parts of a day -/

theorem year_le (d : Date) : d.year.natAbs < 10000 := by
  have hvalid := d.valid
  simp only [isDay, Bool.and_eq_true, decide_eq_true_eq] at hvalid
  omega

theorem month_le (d : Date) : d.month ≤ 12 := by
  have hvalid := d.valid
  simp only [isDay, Bool.and_eq_true, decide_eq_true_eq] at hvalid
  by_contra hlarge
  have hzero : daysInMonth d.year d.month = 0 := by
    unfold daysInMonth
    split <;> omega
  omega

theorem day_le (d : Date) : d.day ≤ 31 := by
  have hvalid := d.valid
  simp only [isDay, Bool.and_eq_true, decide_eq_true_eq] at hvalid
  have hdays : daysInMonth d.year d.month ≤ 31 := by
    unfold daysInMonth
    repeat' split
    all_goals decide
  omega

theorem of?_self (d : Date) : of? d.year d.month d.day = some d := by
  have hvalid : isDay d.year (d.month : Int).toNat (d.day : Int).toNat = true := d.valid
  rw [of?, dif_pos hvalid, if_pos ⟨Int.natCast_nonneg _, Int.natCast_nonneg _⟩]
  rfl

/-- The day with some numbers has these numbers, and no other day has. -/
theorem of?_eq_some_iff {y m d : Int} {day : Date} :
    of? y m d = some day ↔ day.year = y ∧ (day.month : Int) = m ∧ (day.day : Int) = d := by
  constructor
  · intro h
    unfold of? at h
    split at h
    · split at h
      · rename_i hsigns
        obtain rfl := Option.some.inj h
        exact ⟨rfl, Int.toNat_of_nonneg hsigns.1, Int.toNat_of_nonneg hsigns.2⟩
      · cases h
    · cases h
  · rintro ⟨rfl, rfl, rfl⟩
    exact of?_self day

end Date

namespace Value

/-! ## Reading what was written -/

theorem digits_eq (width n : Nat) : Date.digits width n =
    List.replicate (width - (Nat.toDigits 10 n).length) '0' ++ Nat.toDigits 10 n := by
  rw [Date.digits, Text.toList_toString_nat]

theorem isDigit_of_mem_digits {width n : Nat} {c : Char} (h : c ∈ Date.digits width n) :
    c.isDigit = true := by
  rw [digits_eq, List.mem_append] at h
  rcases h with h | h
  · rw [List.eq_of_mem_replicate h]
    rfl
  · exact Text.isDigit_of_mem_toDigits h

/-- A part of a date is read as the number that it was written for. -/
theorem signed?_digits {width n : Nat} (h : n < 10000) :
    Text.signed? 32 (Date.digits width n) = some (n : Int) := by
  have hword : Word.holdsInt 32 (n : Int) = true := by
    have hsize : (Word.size 31 : Int) = 2147483648 := rfl
    simp only [Word.holdsInt, Nat.reduceSub, hsize, Bool.and_eq_true, decide_eq_true_eq]
    omega
  rw [Text.signed?, Text.integer?_of_digits fun _ => isDigit_of_mem_digits, digits_eq,
    Text.natural?_replicate, Option.map_some, Option.bind_some, if_pos hword]

theorem isDateSeparator_of_isDigit {c : Char} (h : c.isDigit = true) :
    isDateSeparator c = false := by
  rw [isDateSeparator, Bool.or_eq_false_iff, Bool.or_eq_false_iff, beq_eq_false_iff_ne,
    beq_eq_false_iff_ne, beq_eq_false_iff_ne]
  refine ⟨⟨?_, ?_⟩, ?_⟩ <;> rintro rfl <;> revert h <;> decide

/-- A text is cut at its first separator. -/
theorem dateParts_append {v : List Char} (hv : ∀ c ∈ v, isDateSeparator c = false) {c : Char}
    (hc : isDateSeparator c = true) (n : Nat) (rest : List Char) :
    dateParts (n + 1) (v ++ c :: rest) = v :: dateParts n rest := by
  have hall : ∀ c ∈ v, (!isDateSeparator c) = true := fun c hc => by rw [hv c hc]; rfl
  have hdrop : (v ++ c :: rest).dropWhile (fun c => !isDateSeparator c) = c :: rest := by
    rw [List.dropWhile_append_of_pos hall, List.dropWhile_cons_of_neg (by simp [hc])]
  have htake : (v ++ c :: rest).takeWhile (fun c => !isDateSeparator c) = v := by
    rw [List.takeWhile_append_of_pos hall, List.takeWhile_cons_of_neg (by simp [hc]),
      List.append_nil]
  simp only [dateParts, hdrop, htake]

theorem dateParts_digits (n width m : Nat) (rest : List Char) :
    dateParts (n + 1) (Date.digits width m ++ '-' :: rest) =
      Date.digits width m :: dateParts n rest :=
  dateParts_append (fun _ hc => isDateSeparator_of_isDigit (isDigit_of_mem_digits hc)) rfl n rest

/-- A day from the year zero on is read from its text, whatever year it is. -/
theorem date?_text {d : Date} (h : 0 ≤ d.year) (currentYear : Int) :
    date? currentYear d.text.toList = some (.one d) := by
  have hmonth := d.month_le
  have hday := d.day_le
  have hnat : ((d.year.natAbs : Nat) : Int) = d.year := by omega
  have hchars : d.text.toList =
      Date.digits 4 d.year.natAbs ++ '-' ::
        (Date.digits 2 d.month ++ '-' :: Date.digits 2 d.day) := by
    rw [Date.text, String.toList_ofList, if_neg (by omega)]
    simp
  rw [date?, hchars, dateParts_digits, dateParts_digits, dateParts]
  simp only [List.mapM_cons, List.mapM_nil, signed?_digits d.year_le,
    signed?_digits (show d.month < 10000 by omega),
    signed?_digits (show d.day < 10000 by omega), hnat]
  show (Date.of? d.year d.month d.day).map Extent.one = _
  rw [Date.of?_self]
  rfl

/-- A day is no pattern. -/
theorem isPattern_text (d : Date) : isPattern d.text = false :=
  isPattern_of_digits fun c hc => by
    rw [Date.text, String.toList_ofList] at hc
    simp only [List.mem_append, List.mem_cons] at hc
    rcases hc with ((hc | hc) | rfl | hc) | rfl | hc
    · split at hc
      · exact .inr (List.mem_singleton.mp hc)
      · cases hc
    · exact .inl (isDigit_of_mem_digits hc)
    · exact .inr rfl
    · exact .inl (isDigit_of_mem_digits hc)
    · exact .inr rfl
    · exact .inl (isDigit_of_mem_digits hc)

/-- A day before the year zero is not read from its text: there is nothing in front of the first
separator. -/
theorem date?_text_of_neg {d : Date} (h : d.year < 0) (currentYear : Int) :
    date? currentYear d.text.toList = none := by
  obtain ⟨rest, hrest⟩ : ∃ rest, d.text.toList = '-' :: rest := by
    rw [Date.text, String.toList_ofList, if_pos h]
    exact ⟨_, rfl⟩
  have hparts : dateParts 2 ('-' :: rest) = [] :: dateParts 1 rest := rfl
  have hempty : Text.signed? 32 [] = none := rfl
  rw [date?, hrest, hparts, List.mapM_cons, hempty]
  rfl

/-- **A day is read from its text** if it does not lie before the year zero, whatever the current
year is. -/
theorem date_text (d : Date) (currentYear : Int) (range : Span) : date currentYear d.text range =
    if 0 ≤ d.year then .ok (.one d) else .error (castFault d.text "date" range) := by
  by_cases h : 0 ≤ d.year
  · rw [date, date?_text h, if_pos h]
    rfl
  · rw [date, date?_text_of_neg (not_le.mp h), if_neg h]
    rfl

end Value

/-! ## Days in documents -/

namespace Date

/-- A number that is not too great has as many digits as it is written in. -/
theorem length_digits {width n : Nat} (hwidth : 0 < width) (h : n < 10 ^ width) :
    (digits width n).length = width := by
  have hle := (Nat.length_toDigits_le_iff (by decide) hwidth).mpr h
  rw [Value.digits_eq, List.length_append, List.length_replicate]
  omega

theorem natural?_digits (width n : Nat) : Text.natural? (digits width n) = some n := by
  rw [Value.digits_eq, Text.natural?_replicate]

/-- The digits of the parts of a day are read one part after the other. -/
theorem ofDigits?_digits {y m d : Nat} (hy : y < 10000) (hm : m < 100) (hd : d < 100)
    (sign : Int) : ofDigits? sign (digits 4 y ++ '-' :: digits 2 m ++ '-' :: digits 2 d) =
      of? (sign * y) m d := by
  have hyear := natural?_digits 4 y
  have hmonth := natural?_digits 2 m
  have hday := natural?_digits 2 d
  obtain ⟨y₁, y₂, y₃, y₄, hys⟩ := List.length_eq_four.mp (length_digits (by decide) hy)
  obtain ⟨m₁, m₂, hms⟩ := List.length_eq_two.mp (length_digits (by decide) hm)
  obtain ⟨d₁, d₂, hds⟩ := List.length_eq_two.mp (length_digits (by decide) hd)
  rw [hys] at hyear ⊢
  rw [hms] at hmonth ⊢
  rw [hds] at hday ⊢
  simp only [List.cons_append, List.nil_append, ofDigits?, hyear, hmonth, hday]
  rfl

/-- **A day in a document is read** from its text, also when it lies before the year zero. -/
theorem ofText?_text (d : Date) : ofText? d.text = some d := by
  have hmonth := d.month_le
  have hday := d.day_le
  have hread := fun sign => ofDigits?_digits d.year_le (show d.month < 100 by omega)
    (show d.day < 100 by omega) sign
  by_cases hsign : d.year < 0
  · have hchars : d.text.toList =
        '-' :: (digits 4 d.year.natAbs ++ '-' :: digits 2 d.month ++ '-' :: digits 2 d.day) := by
      rw [text, String.toList_ofList, if_pos hsign]
      simp
    have hyear : -1 * ((d.year.natAbs : Nat) : Int) = d.year := by omega
    rw [ofText?, hchars]
    show ofDigits? (-1) _ = _
    rw [hread, hyear, of?_self]
  · have hchars : d.text.toList =
        digits 4 d.year.natAbs ++ '-' :: digits 2 d.month ++ '-' :: digits 2 d.day := by
      rw [text, String.toList_ofList, if_neg hsign]
      simp
    have hyear : 1 * ((d.year.natAbs : Nat) : Int) = d.year := by omega
    obtain ⟨c, _, _, _, hcs⟩ := List.length_eq_four.mp (length_digits (by decide) d.year_le)
    have hdigit : c.isDigit = true :=
      Value.isDigit_of_mem_digits (hcs ▸ List.mem_cons_self)
    have hunsigned : ofText? d.text = ofDigits? 1 d.text.toList := by
      rw [ofText?, hchars, hcs]
      split
      · rename_i heq
        obtain ⟨rfl, _⟩ := List.cons.inj heq
        exact absurd hdigit (by decide)
      · rename_i heq
        obtain ⟨rfl, _⟩ := List.cons.inj heq
        exact absurd hdigit (by decide)
      · rfl
    rw [hunsigned, hchars, hread, hyear, of?_self]

end Date

/-! ## The years that are read -/

/-- Something holds of all that a literal names: the one value, or both ends of the span. -/
def Extent.All {α : Type} (P : α → Prop) : Extent α → Prop
  | one a => P a
  | span first stop => P first ∧ P stop

namespace Value

theorem nonneg_of_signed? {bits : Nat} {cs : List Char} {i : Int} (hcs : '-' ∉ cs)
    (h : Text.signed? bits cs = some i) : 0 ≤ i := by
  obtain ⟨j, hj, hij⟩ := Option.bind_eq_some_iff.mp h
  split at hij
  · obtain rfl := Option.some.inj hij
    unfold Text.integer? at hj
    split at hj
    · exact absurd List.mem_cons_self hcs
    · rename_i ds
      cases hn : Text.natural? ds <;> rw [hn] at hj <;> cases hj
      exact Int.natCast_nonneg _
    · cases hn : Text.natural? cs <;> rw [hn] at hj <;> cases hj
      exact Int.natCast_nonneg _
  · cases hij

/-- The first of three parts has no sign, which would be a separator. -/
theorem nonneg_first {cs : List Char} {y m d : Int}
    (h : (dateParts 2 cs).mapM (Text.signed? 32) = some [y, m, d]) : 0 ≤ y := by
  rw [dateParts] at h
  split at h
  · rw [List.mapM_cons] at h
    cases hcs : Text.signed? 32 cs <;> rw [hcs] at h <;> cases h
  · rw [List.mapM_cons] at h
    obtain ⟨a, ha, h⟩ := Option.bind_eq_some_iff.mp h
    obtain ⟨as, _, h⟩ := Option.bind_eq_some_iff.mp h
    obtain ⟨rfl, _⟩ := List.cons.inj (Option.some.inj h)
    exact nonneg_of_signed? (fun hmem => absurd (List.mem_takeWhile_imp hmem) (by decide)) ha

theorem all_monthSpan? {year month : Int} {e : Extent Date} (hyear : 0 ≤ year)
    (h : monthSpan? year month = some e) : e.All fun d => 0 ≤ d.year := by
  obtain ⟨first, hfirst, h⟩ := Option.bind_eq_some_iff.mp h
  have hfirst := (Date.of?_eq_some_iff.mp hfirst).1
  simp only at h
  split at h
  all_goals
    obtain ⟨stop, hstop, h⟩ := Option.bind_eq_some_iff.mp h
    obtain rfl := Option.some.inj h
    have hstop := (Date.of?_eq_some_iff.mp hstop).1
    exact ⟨by omega, by omega⟩

theorem all_yearSpan? {year : Int} {e : Extent Date} (hyear : 0 ≤ year)
    (h : yearSpan? year = some e) : e.All fun d => 0 ≤ d.year := by
  obtain ⟨first, hfirst, h⟩ := Option.bind_eq_some_iff.mp h
  obtain ⟨stop, hstop, h⟩ := Option.bind_eq_some_iff.mp h
  obtain rfl := Option.some.inj h
  have hfirst := (Date.of?_eq_some_iff.mp hfirst).1
  have hstop := (Date.of?_eq_some_iff.mp hstop).1
  exact ⟨by omega, by omega⟩

/-- **What is read lies in the year zero or later** if the current year does. -/
theorem all_date? {currentYear : Int} {cs : List Char} {e : Extent Date} (hyear : 0 ≤ currentYear)
    (h : date? currentYear cs = some e) : e.All fun d => 0 ≤ d.year := by
  obtain ⟨parts, hparts, h⟩ := Option.bind_eq_some_iff.mp h
  have hone : ∀ {y m d : Int}, 0 ≤ y → (Date.of? y m d).map Extent.one = some e →
      e.All fun d => 0 ≤ d.year := by
    intro y m d hy h
    obtain ⟨day, hday, rfl⟩ := Option.map_eq_some_iff.mp h
    have hday := (Date.of?_eq_some_iff.mp hday).1
    exact hy.trans hday.ge
  unfold ofDateParts? at h
  split at h
  · exact hone (nonneg_first hparts) h
  · split at h
    · exact all_monthSpan? (by omega) h
    · exact hone hyear h
  · split at h
    · exact all_yearSpan? (by omega) h
    · exact all_monthSpan? hyear h
  · cases h

end Value

end PixQuery
