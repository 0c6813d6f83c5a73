import PixQuery.Proofs.Value.Spans

/-!
# Parts of a date stand for the days that have them

A date is written in one to three parts. What the parts mean is said here without the days at the
ends of a span: a year stands for the days of that year, a month for the days of that month. The
span that is computed holds these days and no others, and it is computed in words of 32 bits without
a sum that leaves them.

Results:
* `spells_iff`: the parts of a text.
* `dateInWord_eq`: no sum leaves its word.
* `ofDateParts?_eq_span_iff`, `ofDateParts?_eq_one_iff`: what some parts stand for.
* `date_partial`: what a text stands for.
-/

namespace PixQuery

namespace Date

/-! ## The days of the calendar -/

/-- Between which numbers those of a day lie. -/
theorem bounds (d : Date) : (-9999 ≤ d.year ∧ d.year ≤ 9999) ∧ (1 ≤ d.month ∧ d.month ≤ 12) ∧
    1 ≤ d.day ∧ d.day ≤ 31 := by
  have hvalid := d.valid
  simp only [isDay, Bool.and_eq_true, decide_eq_true_eq] at hvalid
  have hmonth : d.month ≠ 0 := fun hzero => by
    have hnone : daysInMonth d.year 0 = 0 := rfl
    rw [hzero] at hvalid
    omega
  exact ⟨hvalid.1.1, ⟨by omega, d.month_le⟩, hvalid.1.2, d.day_le⟩

theorem one_le_daysInMonth (year : Int) :
    ∀ month < 13, 1 ≤ month → 1 ≤ daysInMonth year month := by
  unfold daysInMonth
  generalize isLeapYear year = leap
  revert leap
  decide

/-- Every month of the calendar has a first day. -/
theorem exists_of? (year month : Int) (hyear : -9999 ≤ year ∧ year ≤ 9999) (hlow : 1 ≤ month)
    (hhigh : month ≤ 12) : ∃ d, of? year month 1 = some d := by
  obtain ⟨m, rfl⟩ := Int.eq_ofNat_of_zero_le (Int.le_trans Int.one_nonneg hlow)
  have hdays := one_le_daysInMonth year m (by omega) (by omega)
  exact ⟨⟨year, m, 1, by simp [isDay, hyear.1, hyear.2, hdays]⟩,
    of?_eq_some_iff.mpr ⟨rfl, rfl, rfl⟩⟩

/-- The days from `first` on that come before `stop`. -/
def Within (first stop d : Date) : Prop := d.isBefore first = false ∧ d.isBefore stop = true

theorem within_iff {first stop d : Date} :
    Within first stop d ↔ first.rank ≤ d.rank ∧ d.rank < stop.rank := by
  rw [Within, ← Bool.not_eq_true, isBefore_iff, isBefore_iff, Int.not_lt]

/-- Spans that hold the same days are the same, if they hold a day. -/
theorem within_inj {first stop first' stop' : Date} (h : first.isBefore stop = true)
    (h' : first'.isBefore stop' = true)
    (hsame : ∀ d, Within first stop d ↔ Within first' stop' d) : first = first' ∧ stop = stop' := by
  rw [isBefore_iff] at h h'
  simp only [within_iff] at hsame
  have hfirst := (hsame first).mp ⟨le_rfl, h⟩
  have hfirst' := (hsame first').mpr ⟨le_rfl, h'⟩
  have heq : first.rank = first'.rank := by omega
  refine ⟨rank_inj.mp heq, rank_inj.mp ?_⟩
  have hstop := (hsame stop).mpr
  have hstop' := (hsame stop').mp
  omega

end Date

namespace Value

/-! ## The parts of a text -/

/-- A part of a date that is separated from others. -/
def IsPart (cs : List Char) : Prop := ∀ c ∈ cs, isDateSeparator c = false

/-- The numbers that a text spells in one, two or three parts: numbers of 32 bits, with a separator
behind each but the last. A minus is a separator, so only the third part can have it as a sign. -/
inductive Spells : List Char → List Int → Prop
  | one {u : List Char} {a : Int} (hu : IsPart u) (ha : Text.signed? 32 u = some a) : Spells u [a]
  | two {u v : List Char} {c : Char} {a b : Int} (hu : IsPart u) (hc : isDateSeparator c = true)
      (hv : IsPart v) (ha : Text.signed? 32 u = some a) (hb : Text.signed? 32 v = some b) :
      Spells (u ++ c :: v) [a, b]
  | three {u v w : List Char} {c d : Char} {a b n : Int} (hu : IsPart u)
      (hc : isDateSeparator c = true) (hv : IsPart v) (hd : isDateSeparator d = true)
      (ha : Text.signed? 32 u = some a) (hb : Text.signed? 32 v = some b)
      (hn : Text.signed? 32 w = some n) : Spells (u ++ c :: (v ++ d :: w)) [a, b, n]

theorem dateParts_of_isPart {cs : List Char} (h : IsPart cs) (n : Nat) :
    dateParts (n + 1) cs = [cs] := by
  have hdrop : cs.dropWhile (fun c => !isDateSeparator c) = [] :=
    List.dropWhile_eq_nil_iff.mpr fun c hc => by rw [h c hc]; rfl
  simp only [dateParts, hdrop]

/-- A text is a part, or it has a first separator. -/
theorem isPart_or_exists (cs : List Char) : IsPart cs ∨
    ∃ u c rest, IsPart u ∧ isDateSeparator c = true ∧ cs = u ++ c :: rest := by
  induction cs with
  | nil => exact .inl fun c hc => absurd hc List.not_mem_nil
  | cons c cs ih =>
    cases hc : isDateSeparator c with
    | true => exact .inr ⟨[], c, cs, fun c hc => absurd hc List.not_mem_nil, hc, rfl⟩
    | false =>
      rcases ih with hcs | ⟨u, d, rest, hu, hd, rfl⟩
      · exact .inl (List.forall_mem_cons.mpr ⟨hc, hcs⟩)
      · exact .inr ⟨c :: u, d, rest, List.forall_mem_cons.mpr ⟨hc, hu⟩, hd, rfl⟩

theorem mapM_cons_eq_some {w : List Char} {ws : List (List Char)} {ns : List Int} :
    (w :: ws).mapM (Text.signed? 32) = some ns ↔ ∃ n, Text.signed? 32 w = some n ∧
      ∃ rest, ws.mapM (Text.signed? 32) = some rest ∧ n :: rest = ns := by
  simp only [List.mapM_cons, Option.bind_eq_bind, Option.bind_eq_some_iff, Option.pure_def,
    Option.some.injEq]

theorem mapM_nil_eq_some {ns : List Int} :
    ([] : List (List Char)).mapM (Text.signed? 32) = some ns ↔ [] = ns := by
  rw [List.mapM_nil, Option.pure_def, Option.some.injEq]

/-- **The parts of a text** are those that it is cut into. -/
theorem spells_iff {cs : List Char} {ns : List Int} :
    Spells cs ns ↔ (dateParts 2 cs).mapM (Text.signed? 32) = some ns := by
  constructor
  · intro h
    cases h with
    | one hu ha =>
      rw [dateParts_of_isPart hu]
      simp only [mapM_cons_eq_some, mapM_nil_eq_some]
      exact ⟨_, ha, _, rfl, rfl⟩
    | two hu hc hv ha hb =>
      rw [dateParts_append hu hc, dateParts_of_isPart hv]
      simp only [mapM_cons_eq_some, mapM_nil_eq_some]
      exact ⟨_, ha, _, ⟨_, hb, _, rfl, rfl⟩, rfl⟩
    | three hu hc hv hd ha hb hn =>
      rw [dateParts_append hu hc, dateParts_append hv hd, dateParts]
      simp only [mapM_cons_eq_some, mapM_nil_eq_some]
      exact ⟨_, ha, _, ⟨_, hb, _, ⟨_, hn, _, rfl, rfl⟩, rfl⟩, rfl⟩
  · intro h
    rcases isPart_or_exists cs with hcs | ⟨u, c, rest, hu, hc, rfl⟩
    · rw [dateParts_of_isPart hcs] at h
      simp only [mapM_cons_eq_some, mapM_nil_eq_some] at h
      obtain ⟨a, ha, _, rfl, rfl⟩ := h
      exact .one hcs ha
    · rw [dateParts_append hu hc] at h
      rcases isPart_or_exists rest with hv | ⟨v, d, w, hv, hd, rfl⟩
      · rw [dateParts_of_isPart hv] at h
        simp only [mapM_cons_eq_some, mapM_nil_eq_some] at h
        obtain ⟨a, ha, _, ⟨b, hb, _, rfl, rfl⟩, rfl⟩ := h
        exact .two hu hc hv ha hb
      · rw [dateParts_append hv hd, dateParts] at h
        simp only [mapM_cons_eq_some, mapM_nil_eq_some] at h
        obtain ⟨a, ha, _, ⟨b, hb, _, ⟨n, hn, _, rfl, rfl⟩, rfl⟩, rfl⟩ := h
        exact .three hu hc hv hd ha hb hn

theorem date?_eq_some_iff {currentYear : Int} {cs : List Char} {e : Extent Date} :
    date? currentYear cs = some e ↔ ∃ ns, Spells cs ns ∧ ofDateParts? currentYear ns = some e := by
  simp only [date?, Option.bind_eq_some_iff, spells_iff]

/-! ## Sums in words of 32 bits -/

/-- One more than a number of 32 bits, when that is such a number too. -/
def next32? (i : Int) : Option Int := if Word.holdsInt 32 (i + 1) then some (i + 1) else none

/-- The days of a month, with sums in words of 32 bits; nothing when a sum leaves its word. -/
def monthSpanInWord (year month : Int) : Option (Option (Extent Date)) :=
  match Date.of? year month 1 with
  | none => some none
  | some first =>
    if first.month = 12 then
      (next32? year).map fun next => (Date.of? next 1 1).map (.span first)
    else (next32? month).map fun next => (Date.of? year next 1).map (.span first)

/-- The days of a year, with sums in words of 32 bits. -/
def yearSpanInWord (year : Int) : Option (Option (Extent Date)) :=
  match Date.of? year 1 1 with
  | none => some none
  | some first => (next32? year).map fun next => (Date.of? next 1 1).map (.span first)

/-- What the parts of a date stand for, with sums in words of 32 bits. -/
def ofDatePartsInWord (currentYear : Int) : List Int → Option (Option (Extent Date))
  | [y, m, d] => some ((Date.of? y m d).map .one)
  | [a, b] =>
    if 1000 ≤ a then monthSpanInWord a b else some ((Date.of? currentYear a b).map .one)
  | [a] => if 1000 ≤ a then yearSpanInWord a else monthSpanInWord currentYear a
  | _ => some none

/-- Read a date, with sums in words of 32 bits; nothing when a sum leaves its word. -/
def dateInWord (currentYear : Int) (text : String) (range : Span) :
    Option (Except SemanticFault (Extent Date)) :=
  match (dateParts 2 text.toList).mapM (Text.signed? 32) with
  | none => some (.error (castFault text "date" range))
  | some parts => (ofDatePartsInWord currentYear parts).map (orCastFault text "date" range)

theorem next32?_of_le {i : Int} (hlow : -9999 ≤ i) (hhigh : i ≤ 9999) :
    next32? i = some (i + 1) := by
  have hsize : (Word.size (32 - 1) : Int) = 2147483648 := rfl
  rw [next32?, if_pos]
  simp only [Word.holdsInt, hsize, Bool.and_eq_true, decide_eq_true_eq]
  omega

theorem next32?_year {y m d : Int} {day : Date} (h : Date.of? y m d = some day) :
    next32? y = some (y + 1) := by
  obtain ⟨rfl, -, -⟩ := Date.of?_eq_some_iff.mp h
  exact next32?_of_le day.bounds.1.1 day.bounds.1.2

theorem next32?_month {y m d : Int} {day : Date} (h : Date.of? y m d = some day) :
    next32? m = some (m + 1) := by
  obtain ⟨-, rfl, -⟩ := Date.of?_eq_some_iff.mp h
  have hbounds := day.bounds
  exact next32?_of_le (by omega) (by omega)

theorem monthSpanInWord_eq (year month : Int) :
    monthSpanInWord year month = some (monthSpan? year month) := by
  unfold monthSpanInWord monthSpan?
  cases h : Date.of? year month 1 with
  | none => rfl
  | some first =>
    simp only [next32?_year h, next32?_month h, Option.map_some, Option.bind_eq_bind,
      Option.bind_some]
    split
    · cases Date.of? (year + 1) 1 1 <;> rfl
    · cases Date.of? year (month + 1) 1 <;> rfl

theorem yearSpanInWord_eq (year : Int) : yearSpanInWord year = some (yearSpan? year) := by
  unfold yearSpanInWord yearSpan?
  cases h : Date.of? year 1 1 with
  | none => rfl
  | some first =>
    simp only [next32?_year h, Option.map_some, Option.bind_eq_bind, Option.bind_some]
    cases Date.of? (year + 1) 1 1 <;> rfl

theorem ofDatePartsInWord_eq (currentYear : Int) :
    ∀ ns, ofDatePartsInWord currentYear ns = some (ofDateParts? currentYear ns)
  | [] | [_, _, _] | _ :: _ :: _ :: _ :: _ => rfl
  | [a, b] => by
    simp only [ofDatePartsInWord, ofDateParts?, monthSpanInWord_eq, apply_ite some]
  | [a] => by
    simp only [ofDatePartsInWord, ofDateParts?, monthSpanInWord_eq, yearSpanInWord_eq,
      apply_ite some]

/-- **No sum leaves its word**: a day is found before a sum is made from its numbers. -/
theorem dateInWord_eq (currentYear : Int) (text : String) (range : Span) :
    dateInWord currentYear text range = some (date currentYear text range) := by
  unfold dateInWord date date?
  cases (dateParts 2 text.toList).mapM (Text.signed? 32) with
  | none => rfl
  | some parts => simp only [ofDatePartsInWord_eq, Option.map_some, Option.bind_some]

/-! ## Days of a month and of a year -/

/-- A span of some days: it holds these days and no others, and at least one. -/
structure IsSpanOf (P : Date → Prop) (first stop : Date) : Prop where
  forward : first.isBefore stop = true
  within : ∀ d, Date.Within first stop d ↔ P d

theorem IsSpanOf.unique {P : Date → Prop} {first stop first' stop' : Date}
    (h : IsSpanOf P first stop) (h' : IsSpanOf P first' stop') : first = first' ∧ stop = stop' :=
  Date.within_inj h.forward h'.forward fun d => (h.within d).trans (h'.within d).symm

theorem isSpanOf_month {year month : Int} {first stop : Date}
    (h : monthSpan? year month = some (.span first stop)) :
    IsSpanOf (fun d => d.year = year ∧ (d.month : Int) = month) first stop := by
  refine ⟨forward_monthSpan? h, fun d => ?_⟩
  obtain ⟨first', hfirst, h⟩ := Option.bind_eq_some_iff.mp h
  have hfirst := Date.of?_eq_some_iff.mp hfirst
  have hbounds := And.intro d.bounds first'.bounds
  simp only at h
  rw [Date.within_iff]
  split at h
  all_goals
    obtain ⟨stop', hstop, h⟩ := Option.bind_eq_some_iff.mp h
    obtain ⟨rfl, rfl⟩ := Extent.span.inj (Option.some.inj h)
    have hstop := Date.of?_eq_some_iff.mp hstop
    unfold Date.rank
    omega

theorem isSpanOf_year {year : Int} {first stop : Date}
    (h : yearSpan? year = some (.span first stop)) :
    IsSpanOf (fun d => d.year = year) first stop := by
  refine ⟨forward_yearSpan? h, fun d => ?_⟩
  obtain ⟨first', hfirst, h⟩ := Option.bind_eq_some_iff.mp h
  obtain ⟨stop', hstop, h⟩ := Option.bind_eq_some_iff.mp h
  obtain ⟨rfl, rfl⟩ := Extent.span.inj (Option.some.inj h)
  have hfirst := Date.of?_eq_some_iff.mp hfirst
  have hstop := Date.of?_eq_some_iff.mp hstop
  have hbounds := d.bounds
  rw [Date.within_iff]
  unfold Date.rank
  omega

theorem IsSpanOf.first_mem {P : Date → Prop} {first stop : Date} (h : IsSpanOf P first stop) :
    P first :=
  (h.within first).mp (Date.within_iff.mpr ⟨le_rfl, (Date.isBefore_iff ..).mp h.forward⟩)

theorem IsSpanOf.stop_not_mem {P : Date → Prop} {first stop : Date} (h : IsSpanOf P first stop) :
    ¬P stop := fun hstop =>
  absurd (Date.within_iff.mp ((h.within stop).mpr hstop)).2 (lt_irrefl _)

/-- The days of a month have a span when there is a day behind them. -/
theorem monthSpan?_eq_span_iff {year month : Int} {first stop : Date} :
    monthSpan? year month = some (.span first stop) ↔
      IsSpanOf (fun d => d.year = year ∧ (d.month : Int) = month) first stop := by
  refine ⟨isSpanOf_month, fun h => ?_⟩
  obtain ⟨hyear, hmonth⟩ := h.first_mem
  have hbounds := And.intro first.bounds stop.bounds
  have hbefore := (Date.isBefore_iff ..).mp h.forward
  have hbehind := h.stop_not_mem
  obtain ⟨f, hf⟩ := Date.exists_of? year month (hyear ▸ hbounds.1.1) (by omega) (by omega)
  have hfmonth := (Date.of?_eq_some_iff.mp hf).2.1
  suffices hspan : ∃ g, monthSpan? year month = some (.span f g) by
    obtain ⟨g, hg⟩ := hspan
    obtain ⟨rfl, rfl⟩ := h.unique (isSpanOf_month hg)
    exact hg
  unfold Date.rank at hbefore
  by_cases hlast : f.month = 12
  · obtain ⟨g, hg⟩ := Date.exists_of? (year + 1) 1 (by omega) le_rfl (by decide)
    exact ⟨g, by simp [monthSpan?, hf, hg, hlast]⟩
  · obtain ⟨g, hg⟩ := Date.exists_of? year (month + 1) (hyear ▸ hbounds.1.1) (by omega) (by omega)
    exact ⟨g, by simp [monthSpan?, hf, hg, hlast]⟩

/-- The days of a year have a span when there is a day behind them. -/
theorem yearSpan?_eq_span_iff {year : Int} {first stop : Date} :
    yearSpan? year = some (.span first stop) ↔ IsSpanOf (fun d => d.year = year) first stop := by
  refine ⟨isSpanOf_year, fun h => ?_⟩
  have hyear := h.first_mem
  have hbounds := And.intro first.bounds stop.bounds
  have hbefore := (Date.isBefore_iff ..).mp h.forward
  have hbehind := h.stop_not_mem
  unfold Date.rank at hbefore
  obtain ⟨f, hf⟩ := Date.exists_of? year 1 (hyear ▸ hbounds.1.1) le_rfl (by decide)
  obtain ⟨g, hg⟩ := Date.exists_of? (year + 1) 1 (by omega) le_rfl (by decide)
  have hspan : yearSpan? year = some (.span f g) := by simp [yearSpan?, hf, hg]
  obtain ⟨rfl, rfl⟩ := h.unique (isSpanOf_year hspan)
  exact hspan

/-! ## What a date stands for -/

/-- The days that the parts of a date stand for, if they do not name a day. A first part from 1000
on is a year, and otherwise it is a month of the current year. -/
inductive StandsFor (currentYear : Int) : List Int → (Date → Prop) → Prop
  | year {y : Int} (h : 1000 ≤ y) : StandsFor currentYear [y] fun d => d.year = y
  | month {m : Int} (h : m < 1000) :
    StandsFor currentYear [m] fun d => d.year = currentYear ∧ (d.month : Int) = m
  | yearMonth {y m : Int} (h : 1000 ≤ y) :
    StandsFor currentYear [y, m] fun d => d.year = y ∧ (d.month : Int) = m

/-- The day that the parts of a date name: a day of the current year or of any year. -/
inductive Names (currentYear : Int) (d : Date) : List Int → Prop
  | monthDay {m n : Int} (h : m < 1000) (hyear : d.year = currentYear)
    (hmonth : (d.month : Int) = m) (hday : (d.day : Int) = n) : Names currentYear d [m, n]
  | yearMonthDay {y m n : Int} (hyear : d.year = y) (hmonth : (d.month : Int) = m)
    (hday : (d.day : Int) = n) : Names currentYear d [y, m, n]

variable {currentYear : Int}

theorem map_one_ne_span {day : Option Date} {first stop : Date} :
    day.map Extent.one ≠ some (.span first stop) := by
  cases day <;> simp

theorem monthSpan?_ne_one {year month : Int} {d : Date} :
    monthSpan? year month ≠ some (.one d) := by
  intro h
  obtain ⟨first, _, h⟩ := Option.bind_eq_some_iff.mp h
  simp only at h
  split at h
  all_goals
    obtain ⟨stop, _, h⟩ := Option.bind_eq_some_iff.mp h
    cases h

theorem yearSpan?_ne_one {year : Int} {d : Date} : yearSpan? year ≠ some (.one d) := by
  intro h
  obtain ⟨first, _, h⟩ := Option.bind_eq_some_iff.mp h
  obtain ⟨stop, _, h⟩ := Option.bind_eq_some_iff.mp h
  cases h

/-- **The span of some parts** holds just the days that they stand for. -/
theorem ofDateParts?_eq_span_iff {ns : List Int} {first stop : Date} :
    ofDateParts? currentYear ns = some (.span first stop) ↔
      ∃ P, StandsFor currentYear ns P ∧ IsSpanOf P first stop := by
  constructor
  · intro h
    unfold ofDateParts? at h
    split at h
    · exact absurd h map_one_ne_span
    · split at h
      · rename_i hyear
        exact ⟨_, .yearMonth hyear, monthSpan?_eq_span_iff.mp h⟩
      · exact absurd h map_one_ne_span
    · split at h
      · rename_i hyear
        exact ⟨_, .year hyear, yearSpan?_eq_span_iff.mp h⟩
      · rename_i hmonth
        exact ⟨_, .month (Int.not_le.mp hmonth), monthSpan?_eq_span_iff.mp h⟩
    · cases h
  · rintro ⟨P, hP, hspan⟩
    cases hP with
    | year h => exact (if_pos h).trans (yearSpan?_eq_span_iff.mpr hspan)
    | month h => exact (if_neg (Int.not_le.mpr h)).trans (monthSpan?_eq_span_iff.mpr hspan)
    | yearMonth h => exact (if_pos h).trans (monthSpan?_eq_span_iff.mpr hspan)

/-- **The day of some parts** is the one that they name. -/
theorem ofDateParts?_eq_one_iff {ns : List Int} {d : Date} :
    ofDateParts? currentYear ns = some (.one d) ↔ Names currentYear d ns := by
  have hone : ∀ {y m n : Int}, (Date.of? y m n).map Extent.one = some (.one d) ↔
      d.year = y ∧ (d.month : Int) = m ∧ (d.day : Int) = n := by
    simp [Option.map_eq_some_iff, ← Date.of?_eq_some_iff]
  constructor
  · intro h
    unfold ofDateParts? at h
    split at h
    · obtain ⟨hyear, hmonth, hday⟩ := hone.mp h
      exact .yearMonthDay hyear hmonth hday
    · split at h
      · exact absurd h monthSpan?_ne_one
      · rename_i hlt
        obtain ⟨hyear, hmonth, hday⟩ := hone.mp h
        exact .monthDay (Int.not_le.mp hlt) hyear hmonth hday
    · split at h
      · exact absurd h yearSpan?_ne_one
      · exact absurd h monthSpan?_ne_one
    · cases h
  · intro h
    cases h with
    | monthDay h hyear hmonth hday =>
      exact (if_neg (Int.not_le.mpr h)).trans (hone.mpr ⟨hyear, hmonth, hday⟩)
    | yearMonthDay hyear hmonth hday => exact hone.mpr ⟨hyear, hmonth, hday⟩

theorem date_eq_ok_iff {text : String} {range : Span} {e : Extent Date} :
    date currentYear text range = .ok e ↔
      ∃ ns, Spells text.toList ns ∧ ofDateParts? currentYear ns = some e := by
  rw [← date?_eq_some_iff, date]
  cases date? currentYear text.toList <;> simp [orCastFault]

/-- **Part of a date stands for the days that have it.** A text is read without a sum that leaves
its word of 32 bits. It is read as a span just when its parts stand for days which that span holds,
and no others; and as a day just when its parts name the day. All other texts are refused. -/
theorem date_partial (currentYear : Int) (text : String) (range : Span) :
    dateInWord currentYear text range = some (date currentYear text range) ∧
    (∀ first stop, date currentYear text range = .ok (.span first stop) ↔
      ∃ ns P, Spells text.toList ns ∧ StandsFor currentYear ns P ∧ IsSpanOf P first stop) ∧
    (∀ d, date currentYear text range = .ok (.one d) ↔
      ∃ ns, Spells text.toList ns ∧ Names currentYear d ns) ∧
    ((∃ e, date currentYear text range = .ok e) ∨ ∃ fault,
      date currentYear text range = .error fault ∧ fault = castFault text "date" range ∧
        fault.diagnostic.code = 3019) := by
  refine ⟨dateInWord_eq currentYear text range, fun first stop => ?_, fun d => ?_, ?_⟩
  · simp only [date_eq_ok_iff, ofDateParts?_eq_span_iff, exists_and_left]
  · simp only [date_eq_ok_iff, ofDateParts?_eq_one_iff]
  · cases h : date? currentYear text.toList with
    | some e => exact .inl ⟨e, by rw [date, h]; rfl⟩
    | none => exact .inr ⟨_, by rw [date, h]; rfl, rfl, rfl⟩

/-- The end of a span is a day of the calendar too, so the last month has none. -/
example : date 2024 "9999.12" (.between 0 7) =
    .error (castFault "9999.12" "date" (.between 0 7)) := by
  decide

end Value

end PixQuery
