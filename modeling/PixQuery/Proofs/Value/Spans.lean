import PixQuery.Proofs.Value.Days

/-!
# Literals that stand for spans

A month, a year and a number with question marks at its end stand for all values from one on up to
another. Days are ordered by year, month and day; `Date.rank` counts them, leaving gaps, so that
this order is that of whole numbers.

Results:
* `Date.isBefore_iff`: the order of days is that of their ranks.
* `Value.forward_date?`, `Value.forward_decade?`: a span ends behind its first value, so it stands
  for some value.
-/

namespace PixQuery

namespace Date

/-! ## The order of days -/

/-- A number for each day that grows from day to day. -/
def rank (d : Date) : Int := (d.year * 13 + d.month) * 32 + d.day

/-- A day comes before another if its rank is less. -/
theorem isBefore_iff (a b : Date) : a.isBefore b = true ↔ a.rank < b.rank := by
  have hmonths := And.intro a.month_le b.month_le
  have hdays := And.intro a.day_le b.day_le
  simp only [isBefore, rank, Bool.or_eq_true, Bool.and_eq_true, decide_eq_true_eq, beq_iff_eq]
  omega

theorem rank_inj {a b : Date} : a.rank = b.rank ↔ a = b := by
  refine ⟨fun h => ?_, congrArg rank⟩
  have hmonths := And.intro a.month_le b.month_le
  have hdays := And.intro a.day_le b.day_le
  obtain ⟨y, m, d, _⟩ := a
  obtain ⟨y', m', d', _⟩ := b
  simp only [rank] at h hmonths hdays
  obtain ⟨rfl, rfl, rfl⟩ : y = y' ∧ m = m' ∧ d = d' := by omega
  rfl

end Date

/-! ## Spans -/

/-- A span ends behind its first value. -/
def Extent.Forward {α : Type} (before : α → α → Prop) : Extent α → Prop
  | one _ => True
  | span first stop => before first stop

namespace Value

theorem forward_monthSpan? {year month : Int} {e : Extent Date}
    (h : monthSpan? year month = some e) : e.Forward fun a b => a.isBefore b = true := by
  obtain ⟨first, hfirst, h⟩ := Option.bind_eq_some_iff.mp h
  have hfirst := Date.of?_eq_some_iff.mp hfirst
  simp only at h
  split at h
  all_goals
    obtain ⟨stop, hstop, h⟩ := Option.bind_eq_some_iff.mp h
    obtain rfl := Option.some.inj h
    have hstop := Date.of?_eq_some_iff.mp hstop
    refine (Date.isBefore_iff ..).mpr ?_
    unfold Date.rank
    omega

theorem forward_yearSpan? {year : Int} {e : Extent Date} (h : yearSpan? year = some e) :
    e.Forward fun a b => a.isBefore b = true := by
  obtain ⟨first, hfirst, h⟩ := Option.bind_eq_some_iff.mp h
  obtain ⟨stop, hstop, h⟩ := Option.bind_eq_some_iff.mp h
  obtain rfl := Option.some.inj h
  have hfirst := Date.of?_eq_some_iff.mp hfirst
  have hstop := Date.of?_eq_some_iff.mp hstop
  refine (Date.isBefore_iff ..).mpr ?_
  unfold Date.rank
  omega

/-- **Part of a date** stands for one day at least. -/
theorem forward_date? {currentYear : Int} {cs : List Char} {e : Extent Date}
    (h : date? currentYear cs = some e) : e.Forward fun a b => a.isBefore b = true := by
  obtain ⟨parts, _, h⟩ := Option.bind_eq_some_iff.mp h
  have hone : ∀ {day : Option Date}, day.map Extent.one = some e →
      e.Forward fun a b => a.isBefore b = true := by
    intro day h
    obtain ⟨day, _, rfl⟩ := Option.map_eq_some_iff.mp h
    trivial
  unfold ofDateParts? at h
  split at h
  · exact hone h
  · split at h
    · exact forward_monthSpan? h
    · exact hone h
  · split at h
    · exact forward_yearSpan? h
    · exact forward_monthSpan? h
  · cases h

theorem toInt_of_int64? {n : Nat} {i : Int64} (h : int64? n = some i) : i.toInt = n := by
  unfold int64? at h
  split at h
  · rename_i hword
    obtain rfl := Option.some.inj h
    simp only [Word.holdsInt, Bool.and_eq_true, decide_eq_true_eq] at hword
    exact Int64.toInt_ofInt_of_le hword.1 hword.2
  · cases h

/-- **A number with question marks at its end** stands for one number at least. -/
theorem forward_decade? {digits : List Char} {places : Nat} {e : Extent Int64}
    (h : decade? digits places = some e) : e.Forward fun a b => a.toInt < b.toInt := by
  obtain ⟨n, _, h⟩ := Option.bind_eq_some_iff.mp h
  obtain ⟨_, _, h⟩ := Option.bind_eq_some_iff.mp h
  simp only at h
  split at h
  swap
  · cases h
  obtain ⟨_, _, h⟩ := Option.bind_eq_some_iff.mp h
  obtain ⟨first, hfirst, h⟩ := Option.bind_eq_some_iff.mp h
  obtain ⟨stop, hstop, h⟩ := Option.bind_eq_some_iff.mp h
  obtain rfl := Option.some.inj h
  have hpow : 0 < Nat.pow 10 places := Nat.pow_pos (by omega)
  have hless : n * Nat.pow 10 places < (n + 1) * Nat.pow 10 places :=
    Nat.mul_lt_mul_of_pos_right (Nat.lt_succ_self n) hpow
  show first.toInt < stop.toInt
  rw [toInt_of_int64? hfirst, toInt_of_int64? hstop]
  exact_mod_cast hless

end Value

end PixQuery
