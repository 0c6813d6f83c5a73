import Mathlib.Data.List.DropRight
import Mathlib.Data.List.Forall2
import PixQuery.Proofs.Value.Literals

/-!
# Numbers with question marks at their end

Digits with question marks behind them are read as a span of numbers. The bounds of the span are
computed with numbers of 64 bits, but the span means what one sees: the numbers in it are those the
digits of which match the text, character by character. Other texts with an asterisk or a question
mark are kept as they are.

Results:
* `Text.toDigits_ofDigitChars`: digits that do not start with a zero are those of their value.
* `Text.matches_iff`: the numbers that match digits with question marks behind them.
* `patternNumber_of_isDecade`, `patternNumber_pattern`, `patternNumber_number`: the three kinds of
  texts.
* `patternNumber_matches`: what a text of digits, asterisks and question marks stands for.
-/

namespace PixQuery

/-! ## Digits and their value -/

namespace Text

open Nat (toDigits ofDigitChars)

theorem digitChar_of_isDigit {c : Char} (h : c.isDigit = true) :
    c.toNat - 48 < 10 ∧ Nat.digitChar (c.toNat - 48) = c := by
  have hrange := toNat_of_isDigit h
  have hlt : c.toNat - 48 < 10 := by omega
  refine ⟨hlt, Char.toNat_inj.mp ?_⟩
  rw [Nat.toNat_digitChar_of_lt_ten hlt]
  omega

/-- More digits behind those of a number that is not zero. -/
theorem toDigits_ofDigitChars_from : ∀ {cs : List Char} {n : Nat}, 0 < n →
    (∀ c ∈ cs, c.isDigit = true) → toDigits 10 (ofDigitChars 10 cs n) = toDigits 10 n ++ cs
  | [], n, _, _ => by simp
  | c :: cs, n, hn, h => by
    obtain ⟨hc, hcs⟩ := List.forall_mem_cons.mp h
    obtain ⟨hlt, hchar⟩ := digitChar_of_isDigit hc
    have hdigit : toDigits 10 (10 * n + (c.toNat - 48)) = toDigits 10 n ++ [c] := by
      rw [← Nat.toDigits_append_toDigits (by decide) hn hlt, Nat.toDigits_of_lt_base hlt, hchar]
    calc toDigits 10 (ofDigitChars 10 (c :: cs) n)
        = toDigits 10 (10 * n + (c.toNat - 48)) ++ cs := by
          rw [Nat.ofDigitChars_cons]
          exact toDigits_ofDigitChars_from (by omega) hcs
      _ = toDigits 10 n ++ c :: cs := by rw [hdigit, List.append_assoc, List.singleton_append]

/-- **Digits that do not start with a zero** are those of their value, which is not zero. -/
theorem toDigits_ofDigitChars {cs : List Char} (hne : cs ≠ []) (h : ∀ c ∈ cs, c.isDigit = true)
    (hzero : cs.head? ≠ some '0') :
    0 < ofDigitChars 10 cs 0 ∧ toDigits 10 (ofDigitChars 10 cs 0) = cs := by
  obtain ⟨c, cs, rfl⟩ := List.exists_cons_of_ne_nil hne
  obtain ⟨hc, hcs⟩ := List.forall_mem_cons.mp h
  obtain ⟨hlt, hchar⟩ := digitChar_of_isDigit hc
  have hpos : 0 < c.toNat - 48 := by
    refine Nat.pos_of_ne_zero fun heq => hzero ?_
    rw [heq] at hchar
    rw [← hchar]
    rfl
  have hvalue : ofDigitChars 10 (c :: cs) 0 = ofDigitChars 10 cs (c.toNat - 48) := by
    rw [Nat.ofDigitChars_cons, Nat.mul_zero, Nat.zero_add]
    rfl
  have hdigits := toDigits_ofDigitChars_from hpos hcs
  rw [Nat.toDigits_of_lt_base hlt, hchar] at hdigits
  refine ⟨?_, hvalue ▸ hdigits⟩
  rw [hvalue, Nat.ofDigitChars_eq_ofDigitChars_zero]
  exact Nat.add_pos_left (Nat.mul_pos (Nat.pow_pos (by decide)) hpos) _

theorem ofDigitChars_lt : ∀ {cs : List Char}, (∀ c ∈ cs, c.isDigit = true) →
    ofDigitChars 10 cs 0 < 10 ^ cs.length
  | [], _ => by simp
  | c :: cs, h => by
    obtain ⟨hc, hcs⟩ := List.forall_mem_cons.mp h
    have hlt := (digitChar_of_isDigit hc).1
    have hrest := ofDigitChars_lt hcs
    rw [Nat.ofDigitChars_cons, Nat.ofDigitChars_eq_ofDigitChars_zero, List.length_cons,
      Nat.pow_succ]
    calc 10 ^ cs.length * (10 * 0 + (c.toNat - 48)) + ofDigitChars 10 cs 0
        < 10 ^ cs.length * (10 * 0 + (c.toNat - 48)) + 10 ^ cs.length := by omega
      _ = 10 ^ cs.length * (c.toNat - 48 + 1) := by ring
      _ ≤ 10 ^ cs.length * 10 := Nat.mul_le_mul_left _ hlt

/-- The numbers from `m * 10 ^ k` up to `(m + 1) * 10 ^ k` have `k` digits behind those of `m`. -/
theorem exists_toDigits_append {m : Nat} (hm : 0 < m) : ∀ {k n : Nat}, m * 10 ^ k ≤ n →
    n < (m + 1) * 10 ^ k → ∃ cs, cs.length = k ∧ toDigits 10 n = toDigits 10 m ++ cs
  | 0, n, hlow, hhigh => by
    obtain rfl : n = m := by omega
    exact ⟨[], rfl, by simp⟩
  | k + 1, n, hlow, hhigh => by
    rw [Nat.pow_succ, ← Nat.mul_assoc] at hlow hhigh
    have hpos : m * 10 ^ k ≤ n / 10 := by omega
    obtain ⟨cs, hcs, hdigits⟩ := exists_toDigits_append hm hpos (by omega)
    have hten : 10 ≤ n := by
      have hone := Nat.mul_le_mul hm (Nat.pow_pos (n := k) (show 0 < 10 by decide))
      omega
    refine ⟨cs ++ [Nat.digitChar (n % 10)], by simp [hcs], ?_⟩
    rw [Nat.toDigits_of_base_le (by decide) hten, hdigits, List.append_assoc]

/-! ## Matching -/

/-- A character stands where a pattern has it, and any character where it has a question mark. -/
def Fits (p c : Char) : Prop := p = '?' ∨ p = c

instance (p c : Char) : Decidable (Fits p c) := inferInstanceAs (Decidable (_ ∨ _))

theorem ne_mark_of_isDigit {c : Char} (h : c.isDigit = true) : c ≠ '?' := by
  rintro rfl
  exact absurd h (by decide)

theorem fits_append {digits : List Char} (h : ∀ c ∈ digits, c.isDigit = true) (k : Nat)
    (cs : List Char) : List.Forall₂ Fits (digits ++ List.replicate k '?') cs ↔
      ∃ rest, rest.length = k ∧ cs = digits ++ rest := by
  induction digits generalizing cs with
  | nil =>
    have hmarks : ∀ {k cs}, List.Forall₂ Fits (List.replicate k '?') cs ↔ cs.length = k := by
      intro k cs
      refine ⟨fun hfits => hfits.length_eq.symm.trans List.length_replicate, ?_⟩
      rintro rfl
      refine List.forall₂_iff_zip.mpr ⟨List.length_replicate, fun hmem => ?_⟩
      exact .inl (List.eq_of_mem_replicate (List.of_mem_zip hmem).1)
    simp [hmarks]
  | cons d digits ih =>
    obtain ⟨hd, hdigits⟩ := List.forall_mem_cons.mp h
    rw [List.cons_append, List.forall₂_cons_left_iff]
    constructor
    · rintro ⟨c, cs, hfit, hcs, rfl⟩
      obtain ⟨rest, hrest, rfl⟩ := (ih hdigits cs).mp hcs
      obtain rfl := hfit.resolve_left (ne_mark_of_isDigit hd)
      exact ⟨rest, hrest, rfl⟩
    · rintro ⟨rest, hrest, rfl⟩
      exact ⟨d, _, .inr rfl, (ih hdigits _).mpr ⟨rest, hrest, rfl⟩, rfl⟩

/-- **The numbers that match** digits with `k` question marks behind them are those from the value
of the digits times `10 ^ k` on, up to one more times `10 ^ k`. -/
theorem matches_iff {digits : List Char} (hne : digits ≠ []) (h : ∀ c ∈ digits, c.isDigit = true)
    (hzero : digits.head? ≠ some '0') (k n : Nat) :
    List.Forall₂ Fits (digits ++ List.replicate k '?') (toString n).toList ↔
      ofDigitChars 10 digits 0 * 10 ^ k ≤ n ∧ n < (ofDigitChars 10 digits 0 + 1) * 10 ^ k := by
  obtain ⟨hpos, hdigits⟩ := toDigits_ofDigitChars hne h hzero
  rw [fits_append h, toList_toString_nat]
  constructor
  · rintro ⟨rest, rfl, hn⟩
    have hrest : ∀ c ∈ rest, c.isDigit = true := fun c hc =>
      isDigit_of_mem_toDigits (hn ▸ List.mem_append_right _ hc)
    have hvalue : n = 10 ^ rest.length * ofDigitChars 10 digits 0 + ofDigitChars 10 rest 0 := by
      rw [← Nat.ofDigitChars_eq_ofDigitChars_zero, ← Nat.ofDigitChars_append, ← hn,
        Nat.ofDigitChars_ten_toDigits]
    have hlt := ofDigitChars_lt hrest
    rw [Nat.add_mul, Nat.one_mul, Nat.mul_comm (ofDigitChars 10 digits 0)]
    omega
  · rintro ⟨hlow, hhigh⟩
    obtain ⟨rest, hrest, hn⟩ := exists_toDigits_append hpos hlow hhigh
    exact ⟨rest, hrest, hdigits ▸ hn⟩

end Text

namespace Value

open Nat (ofDigitChars)

/-! ## The three kinds of texts -/

/-- A text of digits with question marks behind them, at least one of each. -/
structure IsDecade (digits : List Char) (places : Nat) (text : String) : Prop where
  nonempty : digits ≠ []
  isDigit : ∀ c ∈ digits, c.isDigit = true
  pos : 0 < places
  spelling : text.toList = digits ++ List.replicate places '?'

/-- A text of digits, asterisks and question marks. -/
def IsDigital (text : String) : Prop :=
  ∀ c ∈ text.toList, c.isDigit = true ∨ isWildcard c = true

variable {text : String} {digits : List Char} {places : Nat}

/-- The question marks at the end of a text, and what is in front of them. -/
theorem take_append_marks (cs : List Char) :
    cs.take (cs.length - (cs.reverse.takeWhile fun c => c == '?').length) ++
      List.replicate (cs.reverse.takeWhile fun c => c == '?').length '?' = cs := by
  generalize hlength : (cs.reverse.takeWhile fun c => c == '?').length = marks
  have hmarks : cs.reverse.takeWhile (fun c => c == '?') = List.replicate marks '?' :=
    List.eq_replicate_iff.mpr ⟨hlength, fun c hc => by simpa using List.mem_takeWhile_imp hc⟩
  obtain ⟨front, hfront⟩ : ∃ front, cs = front ++ List.replicate marks '?' := by
    refine ⟨(cs.reverse.dropWhile fun c => c == '?').reverse, ?_⟩
    calc cs = (cs.reverse.takeWhile (fun c => c == '?') ++
          cs.reverse.dropWhile fun c => c == '?').reverse := by
          rw [List.takeWhile_append_dropWhile, List.reverse_reverse]
      _ = _ := by rw [List.reverse_append, hmarks, List.reverse_replicate]
  rw [hfront, List.length_append, List.length_replicate, Nat.add_sub_cancel, List.take_left]

/-- The question marks at the end of a text are told apart from digits. -/
theorem IsDecade.marks (h : IsDecade digits places text) :
    (text.toList.reverse.takeWhile fun c => c == '?').length = places ∧
      text.toList.take (text.toList.length - places) = digits := by
  have hlast : digits.reverse.takeWhile (fun c => c == '?') = [] := by
    rw [List.takeWhile_eq_nil_iff]
    intro hpos
    have hmem : digits.reverse[0] ∈ digits := List.mem_reverse.mp (List.getElem_mem _)
    simpa using Text.ne_mark_of_isDigit (h.isDigit _ hmem)
  constructor
  · rw [h.spelling, List.reverse_append, List.reverse_replicate, List.takeWhile_append_of_pos
      fun c hc => by rw [List.eq_of_mem_replicate hc]; rfl, hlast, List.append_nil,
      List.length_replicate]
  · rw [h.spelling, List.length_append, List.length_replicate, Nat.add_sub_cancel, List.take_left]

theorem IsDecade.isDigital (h : IsDecade digits places text) : IsDigital text := by
  intro c hc
  rw [h.spelling] at hc
  rcases List.mem_append.mp hc with hc | hc
  · exact .inl (h.isDigit c hc)
  · rw [List.eq_of_mem_replicate hc]
    exact .inr rfl

theorem isPattern_iff : isPattern text = true ↔ ∃ c ∈ text.toList, isWildcard c = true :=
  List.any_eq_true

theorem IsDecade.isPattern (h : IsDecade digits places text) : Value.isPattern text = true :=
  isPattern_iff.mpr ⟨'?', h.spelling ▸ List.mem_append_right _
    (List.mem_replicate.mpr ⟨h.pos.ne', rfl⟩), rfl⟩

theorem isDigital_iff : IsDigital text ↔
    (text.toList.all fun c => c.isDigit || isWildcard c) = true := by
  simp [IsDigital, List.all_eq_true]

instance (text : String) : Decidable (IsDigital text) := decidable_of_iff _ isDigital_iff.symm

/-- How a text of digits, asterisks and question marks is read. -/
theorem patternNumber_of_isDigital (h : IsDigital text) (hpattern : isPattern text = true)
    (hplaces : (text.toList.reverse.takeWhile fun c => c == '?').length = places)
    (hdigits : text.toList.take (text.toList.length - places) = digits) (range : Span) :
    patternNumber text range =
      if digits.isEmpty || !digits.all Char.isDigit then .ok (.pattern text)
      else (orCastFault text "number" range (decade? digits places)).map .extent := by
  simp only [patternNumber, isDigital_iff.mp h, hpattern, hplaces, hdigits, Bool.not_true,
    Bool.or_false, Bool.false_eq_true, if_false]

/-- **Texts with another character, or without asterisks and question marks**, are numbers. -/
theorem patternNumber_number (h : ¬IsDigital text ∨ ∀ c ∈ text.toList, isWildcard c = false)
    (range : Span) :
    patternNumber text range = (number text range).map fun n => .extent (.one n) := by
  rw [patternNumber]
  refine if_pos ?_
  rw [Bool.or_eq_true, Bool.not_eq_true', Bool.not_eq_true', ← Bool.not_eq_true, ← isDigital_iff]
  refine h.imp_right fun hnone => ?_
  simpa [isPattern, List.any_eq_false] using hnone

/-- **Other texts of digits, asterisks and question marks** are kept. -/
theorem patternNumber_pattern (h : IsDigital text)
    (hwild : ∃ c ∈ text.toList, isWildcard c = true)
    (hdecade : ∀ digits places, ¬IsDecade digits places text) (range : Span) :
    patternNumber text range = .ok (.pattern text) := by
  have hsplit := take_append_marks text.toList
  rw [patternNumber_of_isDigital h (isPattern_iff.mpr hwild) rfl rfl]
  generalize (text.toList.reverse.takeWhile fun c => c == '?').length = places at hsplit ⊢
  generalize text.toList.take (text.toList.length - places) = digits at hsplit ⊢
  refine if_pos ?_
  by_contra hnot
  obtain ⟨hne, hdigits⟩ : digits ≠ [] ∧ ∀ c ∈ digits, c.isDigit = true := by simpa using hnot
  rcases Nat.eq_zero_or_pos places with rfl | hplaces
  · -- without question marks at the end there are digits only, and so no wildcard
    obtain ⟨c, hc, hwildcard⟩ := hwild
    rw [← hsplit, List.replicate_zero, List.append_nil] at hc
    rw [isWildcard_of_isDigit (hdigits c hc)] at hwildcard
    cases hwildcard
  · exact hdecade digits places ⟨hne, hdigits, hplaces, hsplit.symm⟩

/-! ## Decades -/

theorem int64?_eq (n : Nat) : int64? n = if n < 2 ^ 63 then some (Int64.ofInt n) else none := by
  have hholds : Word.holdsInt 64 n = true ↔ n < 2 ^ 63 := by
    have hsize : Word.size (64 - 1) = 2 ^ 63 := rfl
    simp only [Word.holdsInt, hsize, Bool.and_eq_true, decide_eq_true_eq]
    omega
  simp only [int64?, hholds]

theorem toInt_ofInt_of_lt {n : Nat} (h : n < 2 ^ 63) : (Int64.ofInt n).toInt = n :=
  Int64.toInt_ofInt_of_le (by omega) (by omega)

/-- **Every bound that is computed is checked**: there is a span when its end is a number of 64
bits, and nothing otherwise. -/
theorem decade?_eq (hne : digits ≠ []) (h : ∀ c ∈ digits, c.isDigit = true) (places : Nat) :
    decade? digits places =
      if (ofDigitChars 10 digits 0 + 1) * 10 ^ places < 2 ^ 63 then
        some (.span (Int64.ofInt (ofDigitChars 10 digits 0 * 10 ^ places : Nat))
          (Int64.ofInt ((ofDigitChars 10 digits 0 + 1) * 10 ^ places : Nat)))
      else none := by
  have hnatural : Text.natural? digits = some (ofDigitChars 10 digits 0) := by
    rw [Text.natural?, if_pos (by simpa [hne] using h), Text.digitsFrom_eq_ofDigitChars]
  generalize ofDigitChars 10 digits 0 = value at hnatural ⊢
  simp only [decade?, hnatural, int64?_eq, Nat.pow_eq, Option.bind_eq_bind, Option.bind_some]
  by_cases hstop : (value + 1) * 10 ^ places < 2 ^ 63
  · have hpow : 0 < 10 ^ places := Nat.pow_pos (by decide)
    have hscale : 10 ^ places < 2 ^ 63 := (Nat.le_mul_of_pos_left _ (by omega)).trans_lt hstop
    have hvalue : value < 2 ^ 63 :=
      (Nat.lt_succ_self value).trans ((Nat.le_mul_of_pos_right _ hpow).trans_lt hstop)
    have hfirst : value * 10 ^ places < 2 ^ 63 :=
      (Nat.mul_le_mul_right _ (Nat.le_succ value)).trans_lt hstop
    have hplaces : places < 20 := by
      by_contra hge
      have hten := Nat.pow_le_pow_right (n := 10) (by decide) (Nat.le_of_not_lt hge)
      omega
    simp only [hvalue, hscale, hfirst, hstop, hplaces, if_true, Option.bind_some]
    rfl
  · rw [if_neg hstop]
    simp only [hstop, if_false]
    split_ifs <;> rfl

/-- **Digits with question marks behind them** are a span, or no number if its end is too large. -/
theorem patternNumber_of_isDecade (h : IsDecade digits places text) (range : Span) :
    patternNumber text range =
      if (ofDigitChars 10 digits 0 + 1) * 10 ^ places < 2 ^ 63 then
        .ok (.extent (.span (Int64.ofInt (ofDigitChars 10 digits 0 * 10 ^ places : Nat))
          (Int64.ofInt ((ofDigitChars 10 digits 0 + 1) * 10 ^ places : Nat))))
      else .error (castFault text "number" range) := by
  have hnot : (digits.isEmpty || !digits.all Char.isDigit) = false := by
    simpa [h.nonempty] using h.isDigit
  rw [patternNumber_of_isDigital h.isDigital h.isPattern h.marks.1 h.marks.2, hnot,
    if_neg Bool.false_ne_true, decade?_eq h.nonempty h.isDigit]
  split_ifs <;> rfl

/-- **Question marks at the end stand for the digits there.** Digits with question marks behind them
are read as a span that starts with the value of the digits times a power of ten, and ends with one
more times that power. When that end is no number of 64 bits, the text is refused. A number lies in
the span just when its digits match the text, unless the text starts with a zero. Other texts of
digits, asterisks and question marks are kept as patterns, and all texts with another character, or
with digits only, are read as numbers. -/
theorem patternNumber_matches (text : String) (range : Span) :
    (∀ digits places, IsDecade digits places text →
      ((ofDigitChars 10 digits 0 + 1) * 10 ^ places < 2 ^ 63 → ∃ first stop : Int64,
        patternNumber text range = .ok (.extent (.span first stop)) ∧
        first.toInt = ofDigitChars 10 digits 0 * 10 ^ places ∧
        stop.toInt = (ofDigitChars 10 digits 0 + 1) * 10 ^ places ∧
        (digits.head? ≠ some '0' → ∀ n : Nat, first.toInt ≤ n ∧ n < stop.toInt ↔
          List.Forall₂ Text.Fits text.toList (toString n).toList)) ∧
      (2 ^ 63 ≤ (ofDigitChars 10 digits 0 + 1) * 10 ^ places → ∃ fault,
        patternNumber text range = .error fault ∧ fault = castFault text "number" range ∧
        fault.diagnostic.code = 3019)) ∧
    (IsDigital text → (∃ c ∈ text.toList, isWildcard c = true) →
      (∀ digits places, ¬IsDecade digits places text) →
      patternNumber text range = .ok (.pattern text)) ∧
    (¬IsDigital text ∨ (∀ c ∈ text.toList, isWildcard c = false) →
      patternNumber text range = (number text range).map fun n => .extent (.one n)) := by
  refine ⟨fun digits places h => ⟨fun hstop => ?_, fun hstop => ?_⟩,
    fun hdigital hwild hdecade => patternNumber_pattern hdigital hwild hdecade range,
    fun h => patternNumber_number h range⟩
  · have hfirst := (Nat.mul_le_mul_right (10 ^ places) (Nat.le_succ _)).trans_lt hstop
    have hread := patternNumber_of_isDecade h range
    rw [if_pos hstop] at hread
    refine ⟨_, _, hread, ?_, ?_, fun hzero n => ?_⟩
    · exact (toInt_ofInt_of_lt hfirst).trans (by push_cast; rfl)
    · exact (toInt_ofInt_of_lt hstop).trans (by push_cast; rfl)
    rw [toInt_ofInt_of_lt hfirst, toInt_ofInt_of_lt hstop, h.spelling,
      Text.matches_iff h.nonempty h.isDigit hzero]
    exact and_congr Int.ofNat_le Int.ofNat_lt
  · have hread := patternNumber_of_isDecade h range
    rw [if_neg (Nat.not_lt.mpr hstop)] at hread
    exact ⟨_, hread, rfl, rfl⟩

theorem patternNumber_matches_twelve :
    (∃ first stop : Int64, patternNumber "12??" (.between 0 4) = .ok (.extent (.span first stop)) ∧
      first.toInt = 1200 ∧ stop.toInt = 1300 ∧
      (first.toInt ≤ (1234 : Nat) ∧ (1234 : Nat) < stop.toInt ↔
        List.Forall₂ Text.Fits "12??".toList (toString 1234).toList)) ∧
    (∃ fault, patternNumber "922337203685477580?" (.between 0 19) = .error fault ∧
      fault.diagnostic.code = 3019) ∧
    patternNumber "1?2" (.between 0 3) = .ok (.pattern "1?2") ∧
    patternNumber "-12?" (.between 0 4) =
      (number "-12?" (.between 0 4)).map fun n => .extent (.one n) := by
  have htwelve : IsDecade ['1', '2'] 2 "12??" :=
    ⟨by decide, List.all_eq_true.mp (by decide), by decide, by decide⟩
  have hlarge : IsDecade "922337203685477580".toList 1 "922337203685477580?" :=
    ⟨by decide, List.all_eq_true.mp (by decide), by decide, by decide⟩
  have hinner : ∀ digits places, ¬IsDecade digits places "1?2" := fun digits places h => by
    have hmarks := h.marks.1
    exact absurd (hmarks.symm.trans (by decide)) h.pos.ne'
  obtain ⟨first, stop, hread, hfirst, hstop, hmatches⟩ :=
    ((patternNumber_matches "12??" (.between 0 4)).1 _ _ htwelve).1 (by decide)
  obtain ⟨fault, hfault, _, hcode⟩ :=
    ((patternNumber_matches "922337203685477580?" (.between 0 19)).1 _ _ hlarge).2 (by decide)
  exact ⟨⟨first, stop, hread, hfirst, hstop, hmatches (by decide) 1234⟩, ⟨fault, hfault, hcode⟩,
    (patternNumber_matches "1?2" (.between 0 3)).2.1 (by decide) (isPattern_iff.mp (by decide))
      hinner,
    (patternNumber_matches "-12?" (.between 0 4)).2.2 (.inl (by decide))⟩

end Value

end PixQuery
