import Mathlib.Tactic.Linarith
import Mathlib.Tactic.Ring
import PixQuery.Value.Cast

/-!
# Whole numbers of 53 binary digits

A whole number is short when at most 53 binary digits of it count. What a rounded number is nearest
to is short, and a short number is not changed by rounding. So a size that was computed is computed
again from its own digits, also where it is the greatest one and the rounded number lies above it.

Results:
* `Binary64.isShort_round`: rounding gives short numbers.
* `Binary64.isExactly_ofRatio`: a short number is rounded to itself.
* `Value.bytes?_of_bytes?`: the bytes of an amount are the bytes of their own number.
-/

namespace PixQuery

namespace Binary64

/-! ## Short numbers -/

/-- At most 53 binary digits of a number count. -/
def IsShort (n : Nat) : Prop := ∃ digits exponent, digits ≤ 2 ^ 53 ∧ n = digits * 2 ^ exponent

/-- A number is exactly a whole number. -/
def IsExactly (x : Binary64) (n : Nat) : Prop := x.numerator = n * x.denominator

theorem denominator_pos (x : Binary64) : 0 < x.denominator := Nat.two_pow_pos _

theorem isShort_of_le {n : Nat} (h : n ≤ 2 ^ 53) : IsShort n := ⟨n, 0, h, by simp⟩

/-- All digits of a short number behind the first 53 are zero. -/
theorem IsShort.dvd {n : Nat} (h : IsShort n) : 2 ^ (n.log2 - 52) ∣ n := by
  obtain ⟨digits, exponent, hdigits, rfl⟩ := h
  rcases Nat.eq_zero_or_pos digits with rfl | hpos
  · simp
  rcases Nat.lt_or_eq_of_le hdigits with hlt | rfl
  · have hlog : (digits * 2 ^ exponent).log2 < 53 + exponent := by
      refine (Nat.log2_lt (Nat.mul_pos hpos (Nat.two_pow_pos _)).ne').mpr ?_
      rw [Nat.pow_add]
      exact Nat.mul_lt_mul_of_pos_right hlt (Nat.two_pow_pos _)
    exact Nat.dvd_mul_left_of_dvd (Nat.pow_dvd_pow 2 (by omega)) digits
  · rw [← Nat.pow_add, Nat.log2_two_pow]
    exact Nat.pow_dvd_pow 2 (by omega)

/-! ## Rounding -/

theorem nearestEven_of_dvd {num den : Nat} (hden : 0 < den) (h : den ∣ num) :
    nearestEven num den = num / den := by
  simp only [nearestEven, Nat.mod_eq_zero_of_dvd h]
  rw [if_pos (by omega)]

theorem nearestEven_le {num den bound : Nat} (h : num < bound * den) :
    nearestEven num den ≤ bound := by
  have hquotient : num / den < bound := Nat.div_lt_of_lt_mul (by rwa [Nat.mul_comm])
  unfold nearestEven
  simp only
  split
  · omega
  · split
    · omega
    · split <;> omega

/-- The greatest power of two that a ratio reaches, as `ofRatio` finds it. -/
def topOf (num den : Nat) : Int :=
  let guess : Int := (num.log2 : Int) - (den.log2 : Int)
  if atLeastPower num den guess then guess else guess - 1

theorem ofRatio_eq {num den : Nat} (h : num ≠ 0) :
    ofRatio num den = atExponent num den (topOf num den - 52) := by
  rw [ofRatio, if_neg h, topOf]

theorem atLeastPower_iff {num den : Nat} {e : Int} :
    atLeastPower num den e = true ↔ den * 2 ^ e.toNat ≤ num * 2 ^ (-e).toNat := by
  rw [atLeastPower, decide_eq_true_iff]
  rfl

/-- A ratio does not reach the power of two above its greatest one. -/
theorem lt_topOf {num den : Nat} (hnum : num ≠ 0) (hden : den ≠ 0) :
    num * 2 ^ (-(topOf num den + 1)).toNat < den * 2 ^ (topOf num den + 1).toNat := by
  rw [← Nat.not_le, ← atLeastPower_iff]
  unfold topOf
  simp only
  split
  · have hnum' : num < 2 ^ (num.log2 + 1) := (Nat.log2_lt hnum).mp (Nat.lt_succ_self _)
    have hden' : 2 ^ den.log2 ≤ den := Nat.log2_self_le hden
    rw [atLeastPower_iff, Nat.not_le]
    generalize hg : (num.log2 : Int) - (den.log2 : Int) + 1 = g
    have hsum : num.log2 + 1 + (-g).toNat = den.log2 + g.toNat := by omega
    calc num * 2 ^ (-g).toNat < 2 ^ (num.log2 + 1) * 2 ^ (-g).toNat :=
          Nat.mul_lt_mul_of_pos_right hnum' (Nat.two_pow_pos _)
      _ = 2 ^ den.log2 * 2 ^ g.toNat := by rw [← Nat.pow_add, ← Nat.pow_add, hsum]
      _ ≤ den * 2 ^ g.toNat := Nat.mul_le_mul_right _ hden'
  · rename_i hlow
    rwa [Int.sub_add_cancel]

/-- A rounded number has at most 53 digits, or is the power of two above them. -/
theorem digits_ofRatio_le {num den : Nat} (hden : den ≠ 0) : (ofRatio num den).digits ≤ 2 ^ 53 := by
  by_cases hnum : num = 0
  · rw [ofRatio, if_pos hnum]
    exact Nat.zero_le _
  · rw [ofRatio_eq hnum]
    refine nearestEven_le ?_
    have hlt := lt_topOf hnum hden
    generalize topOf num den = top at hlt ⊢
    have hsum : (-(top - 52)).toNat + (top + 1).toNat =
        53 + (-(top + 1)).toNat + (top - 52).toNat := by omega
    refine Nat.lt_of_mul_lt_mul_right (a := 2 ^ (-(top + 1)).toNat) ?_
    calc num * 2 ^ (-(top - 52)).toNat * 2 ^ (-(top + 1)).toNat
        = num * 2 ^ (-(top + 1)).toNat * 2 ^ (-(top - 52)).toNat := Nat.mul_right_comm ..
      _ < den * 2 ^ (top + 1).toNat * 2 ^ (-(top - 52)).toNat :=
          Nat.mul_lt_mul_of_pos_right hlt (Nat.two_pow_pos _)
      _ = den * 2 ^ (53 + (-(top + 1)).toNat + (top - 52).toNat) := by
          rw [Nat.mul_assoc, ← Nat.pow_add, Nat.add_comm, hsum]
      _ = 2 ^ 53 * (den * 2 ^ (top - 52).toNat) * 2 ^ (-(top + 1)).toNat := by
          rw [Nat.pow_add, Nat.pow_add]
          ring

/-- **The whole number nearest to a rounded number is short.** -/
theorem isShort_round {x : Binary64} (h : x.digits ≤ 2 ^ 53) : IsShort x.round := by
  obtain ⟨digits, exponent⟩ := x
  rcases Int.lt_or_le exponent 0 with hneg | hpos
  · refine isShort_of_le ?_
    have hnum : exponent.toNat = 0 := by omega
    simp only [round, numerator, denominator, hnum]
    show (2 * (digits * 2 ^ 0) + 2 ^ (-exponent).toNat) / (2 * 2 ^ (-exponent).toNat) ≤ _
    have hden : 2 ≤ 2 ^ (-exponent).toNat := by
      calc 2 = 2 ^ 1 := rfl
        _ ≤ 2 ^ (-exponent).toNat := Nat.pow_le_pow_right (by decide) (by omega)
    simp only at h
    refine Nat.div_le_of_le_mul ?_
    nlinarith
  · refine ⟨digits, exponent.toNat, h, ?_⟩
    have hden : (-exponent).toNat = 0 := by omega
    simp only [round, numerator, denominator, hden]
    show (2 * (digits * 2 ^ exponent.toNat) + 2 ^ 0) / (2 * 2 ^ 0) = _
    omega

/-! ## Numbers that are not changed -/

/-- **A short number is rounded to itself**, whatever power of two it is written over. -/
theorem isExactly_ofRatio {n : Nat} (h : IsShort n) (j : Nat) :
    IsExactly (ofRatio (n * 2 ^ j) (2 ^ j)) n := by
  rcases Nat.eq_zero_or_pos n with rfl | hn
  · rw [Nat.zero_mul, ofRatio, if_pos rfl]
    rfl
  have hpow : 0 < 2 ^ j := Nat.two_pow_pos j
  have hne : n * 2 ^ j ≠ 0 := (Nat.mul_pos hn hpow).ne'
  have hlog : (n * 2 ^ j).log2 = n.log2 + j := by
    rw [Nat.log2_eq_iff hne, Nat.pow_add, Nat.pow_add, Nat.pow_add]
    have hle := Nat.log2_self_le hn.ne'
    have hlt := (Nat.log2_lt hn.ne').mp (Nat.lt_succ_self _)
    rw [Nat.pow_succ] at hlt
    exact ⟨Nat.mul_le_mul_right _ hle, by nlinarith⟩
  have htop : topOf (n * 2 ^ j) (2 ^ j) = n.log2 := by
    have hreach : atLeastPower (n * 2 ^ j) (2 ^ j) n.log2 = true := by
      rw [atLeastPower_iff, Int.toNat_natCast]
      have hle := Nat.log2_self_le hn.ne'
      calc 2 ^ j * 2 ^ n.log2 ≤ 2 ^ j * n := Nat.mul_le_mul_left _ hle
        _ = n * 2 ^ j := Nat.mul_comm _ _
        _ ≤ n * 2 ^ j * 2 ^ (-(n.log2 : Int)).toNat := Nat.le_mul_of_pos_right _ (Nat.two_pow_pos _)
    have hguess : ((n.log2 + j : Nat) : Int) - (j : Int) = n.log2 := by omega
    simp only [topOf, hlog, Nat.log2_two_pow, hguess, hreach, if_true]
  rw [ofRatio_eq hne, htop]
  generalize he : (n.log2 : Int) - 52 = e
  have hdvd : 2 ^ j * 2 ^ e.toNat ∣ n * 2 ^ j * 2 ^ (-e).toNat := by
    have hexp : e.toNat = n.log2 - 52 := by omega
    refine Dvd.dvd.mul_right ?_ _
    rw [Nat.mul_comm, hexp]
    exact Nat.mul_dvd_mul_right h.dvd _
  have hden : 0 < 2 ^ j * 2 ^ e.toNat := Nat.mul_pos hpow (Nat.two_pow_pos _)
  show nearestEven (n * 2 ^ j * 2 ^ (-e).toNat) (2 ^ j * 2 ^ e.toNat) * 2 ^ e.toNat =
    n * 2 ^ (-e).toNat
  rw [nearestEven_of_dvd hden hdvd]
  refine Nat.eq_of_mul_eq_mul_left hpow ?_
  calc 2 ^ j * (n * 2 ^ j * 2 ^ (-e).toNat / (2 ^ j * 2 ^ e.toNat) * 2 ^ e.toNat)
      = n * 2 ^ j * 2 ^ (-e).toNat / (2 ^ j * 2 ^ e.toNat) * (2 ^ j * 2 ^ e.toNat) := by ring
    _ = n * 2 ^ j * 2 ^ (-e).toNat := Nat.div_mul_cancel hdvd
    _ = 2 ^ j * (n * 2 ^ (-e).toNat) := by ring

theorem isExactly_ofRatio_one {n : Nat} (h : IsShort n) : IsExactly (ofRatio n 1) n := by
  simpa using isExactly_ofRatio h 0

/-- A short number times one is not changed. -/
theorem IsExactly.timesNat_one {x : Binary64} {n : Nat} (hx : IsExactly x n) (h : IsShort n) :
    IsExactly (x.timesNat 1) n := by
  rw [timesNat, Nat.mul_one, hx]
  exact isExactly_ofRatio h _

theorem IsExactly.round {x : Binary64} {n : Nat} (hx : IsExactly x n) : x.round = n := by
  have hden := x.denominator_pos
  rw [Binary64.round, hx]
  refine Nat.div_eq_of_lt_le ?_ ?_ <;> nlinarith

theorem IsExactly.exceeds {x : Binary64} {n : Nat} (hx : IsExactly x n) (m : Nat) :
    x.exceeds m = decide (m < n) := by
  have hden := x.denominator_pos
  rw [Binary64.exceeds, hx, decide_eq_decide]
  exact Nat.mul_lt_mul_right hden

/-- What does not exceed a whole number is rounded to no more. -/
theorem round_le_of_exceeds {x : Binary64} {m : Nat} (h : x.exceeds m = false) : x.round ≤ m := by
  have hden := x.denominator_pos
  rw [Binary64.exceeds, decide_eq_false_iff_not, Nat.not_lt] at h
  rw [Binary64.round]
  refine Nat.lt_succ_iff.mp (Nat.div_lt_of_lt_mul ?_)
  nlinarith

end Binary64

namespace Value

open Binary64 (IsShort)

/-- The bytes of a short number of bytes. -/
theorem bytes?_of_isShort {n : Nat} (h : IsShort n) (hn : n ≤ Word.size 64) :
    bytes? (.ofRatio n 1) 1 = some (UInt64.ofNat (min n (Word.size 64 - 1))) := by
  have hexactly := (Binary64.isExactly_ofRatio_one h).timesNat_one h
  simp only [bytes?, hexactly.exceeds, hexactly.round]
  rw [if_neg (by simpa using hn)]

/-- **The bytes of an amount of units** are the bytes of their own number. -/
theorem bytes?_of_bytes? {amount : Binary64} {unit : Nat} {size : UInt64}
    (h : bytes? amount unit = some size) : bytes? (.ofRatio size.toNat 1) 1 = some size := by
  unfold bytes? at h
  simp only at h
  split at h
  · cases h
  · rename_i hexceeds
    obtain rfl := Option.some.inj h
    have hdigits : (amount.timesNat unit).digits ≤ 2 ^ 53 :=
      Binary64.digits_ofRatio_le amount.denominator_pos.ne'
    have hshort := Binary64.isShort_round hdigits
    have hle := Binary64.round_le_of_exceeds (Bool.not_eq_true _ ▸ hexceeds)
    generalize (amount.timesNat unit).round = n at hshort hle
    rcases Nat.lt_or_eq_of_le hle with hlt | rfl
    · have hmin : min n (Word.size 64 - 1) = n := Nat.min_eq_left (by omega)
      have hword : (UInt64.ofNat n).toNat = n := by
        rw [UInt64.toNat_ofNat']
        exact Nat.mod_eq_of_lt hlt
      rw [hmin, hword, bytes?_of_isShort hshort hle, hmin]
    · -- the greatest size is rounded up, and cut off again
      decide

end Value

end PixQuery
