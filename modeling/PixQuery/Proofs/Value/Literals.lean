import Mathlib.Data.List.TakeWhile
import PixQuery.Meaning.Basic
import PixQuery.Proofs.Value.Binary64
import PixQuery.Text.Lowercase

/-!
# Values are read back from what they are shown as

Numbers and sizes are shown in decimal digits, and flags by their names in lower case. Each of these
is read as the value it was shown for.

Results:
* `Text.natural?_toDigits`, `Value.number?_shown`: whole numbers.
* `Value.size?_shown`: sizes that can be computed.
* `Flags.unionAll_typedNames`: flags of what an image waits for.
-/

namespace PixQuery

/-! ## Whole numbers -/

namespace Text

theorem digitsFrom_eq_ofDigitChars (n : Nat) (cs : List Char) :
    digitsFrom n cs = Nat.ofDigitChars 10 cs n := Nat.ofDigitChars_eq_foldl.symm

theorem isDigit_of_mem_toDigits {n : Nat} {c : Char} (h : c ∈ Nat.toDigits 10 n) :
    c.isDigit = true :=
  Nat.isDigit_of_mem_toDigits (by decide) (by decide) h

theorem toNat_of_isDigit {c : Char} (h : c.isDigit = true) : 48 ≤ c.toNat ∧ c.toNat ≤ 57 := by
  simpa [Char.isDigit, UInt32.le_iff_toNat_le] using h

/-- The digits of a number behind some zeros. -/
theorem natural?_replicate (k n : Nat) :
    natural? (List.replicate k '0' ++ Nat.toDigits 10 n) = some n := by
  have hdigits : (List.replicate k '0' ++ Nat.toDigits 10 n).all Char.isDigit = true := by
    rw [List.all_eq_true]
    intro c hc
    rcases List.mem_append.mp hc with hc | hc
    · rw [List.eq_of_mem_replicate hc]
      rfl
    · exact isDigit_of_mem_toDigits hc
  rw [natural?, hdigits, if_pos (by simp), digitsFrom_eq_ofDigitChars,
    Nat.ofDigitChars_append, Nat.ofDigitChars_replicate_zero, Nat.mul_zero,
    Nat.ofDigitChars_ten_toDigits]

/-- **The digits of a number** are read as the number. -/
theorem natural?_toDigits (n : Nat) : natural? (Nat.toDigits 10 n) = some n :=
  natural?_replicate 0 n

/-- A number without a sign. -/
theorem integer?_of_digits {cs : List Char} (h : ∀ c ∈ cs, c.isDigit = true) :
    integer? cs = (natural? cs).map fun n : Nat => (n : Int) := by
  unfold integer?
  split
  · exact absurd (h '-' (by simp)) (by decide)
  · exact absurd (h '+' (by simp)) (by decide)
  · cases natural? cs <;> rfl

theorem toList_toString_nat (n : Nat) : (toString n).toList = Nat.toDigits 10 n := by
  rw [Nat.toString_eq_ofList_toDigits, String.toList_ofList]

theorem isDigit_of_mem_toString {n : Nat} {c : Char} (h : c ∈ (toString n).toList) :
    c.isDigit = true := isDigit_of_mem_toDigits (toList_toString_nat n ▸ h)

theorem toList_toString_ofNat (n : Nat) :
    (toString (Int.ofNat n)).toList = Nat.toDigits 10 n := toList_toString_nat n

theorem toList_toString_negSucc (n : Nat) :
    (toString (Int.negSucc n)).toList = '-' :: Nat.toDigits 10 (n + 1) := by
  rw [← toList_toString_nat]
  exact String.toList_append

/-- A whole number is read from its digits and its sign. -/
theorem integer?_toString (i : Int) : integer? (toString i).toList = some i := by
  cases i with
  | ofNat n =>
    rw [toList_toString_ofNat, integer?_of_digits fun _ => isDigit_of_mem_toDigits,
      natural?_toDigits]
    rfl
  | negSucc n =>
    rw [toList_toString_negSucc, integer?, natural?_toDigits]
    rfl

/-- A number of some bits is read from the digits and the sign of one that they hold. -/
theorem signed?_toString {bits : Nat} {i : Int} (h : Word.holdsInt bits i = true) :
    signed? bits (toString i).toList = some i := by
  rw [signed?, integer?_toString, Option.bind_some, if_pos h]

end Text

namespace Value

/-! ## Numbers and sizes -/

theorem holdsInt_toInt (n : Int64) : Word.holdsInt 64 n.toInt = true := by
  have hlow := n.le_toInt
  have hhigh := n.toInt_lt
  simp only [Word.holdsInt, Bool.and_eq_true, decide_eq_true_eq]
  exact ⟨hlow, hhigh⟩

/-- **A number is read** from what it is shown as. -/
theorem number?_shown (n : Int64) : number? (FilterValue.number n).shown.toList = some n := by
  rw [number?, FilterValue.shown, Text.signed?_toString (holdsInt_toInt n), Option.map_some,
    Int64.ofInt_toInt]

/-- What stands in a whole number: digits, and a minus at its front. -/
theorem mem_toString_int {i : Int} {c : Char} (h : c ∈ (toString i).toList) :
    c.isDigit = true ∨ c = '-' := by
  cases i with
  | ofNat n =>
    rw [Text.toList_toString_ofNat] at h
    exact .inl (Text.isDigit_of_mem_toDigits h)
  | negSucc n =>
    rw [Text.toList_toString_negSucc, List.mem_cons] at h
    exact h.symm.imp Text.isDigit_of_mem_toDigits id

theorem isWildcard_of_isDigit {c : Char} (h : c.isDigit = true) : isWildcard c = false := by
  rw [isWildcard, Bool.or_eq_false_iff, beq_eq_false_iff_ne, beq_eq_false_iff_ne]
  constructor <;> rintro rfl <;> revert h <;> decide

/-- Digits with minuses between them are no pattern. -/
theorem isPattern_of_digits {text : String} (h : ∀ c ∈ text.toList, c.isDigit = true ∨ c = '-') :
    isPattern text = false := by
  rw [isPattern, List.any_eq_false]
  intro c hc
  rcases h c hc with h | rfl
  · simp [isWildcard_of_isDigit h]
  · decide

theorem isPattern_shown_number (n : Int64) : isPattern (FilterValue.number n).shown = false :=
  isPattern_of_digits fun _ => mem_toString_int

theorem isPattern_shown_size (n : UInt64) : isPattern (FilterValue.size n).shown = false :=
  isPattern_of_digits fun c hc => by
    rw [FilterValue.shown, Text.toList_toString_nat] at hc
    exact .inl (Text.isDigit_of_mem_toDigits hc)

theorem patternNumber_shown (n : Int64) (range : Span) :
    patternNumber (FilterValue.number n).shown range = .ok (.extent (.one n)) := by
  simp only [patternNumber, isPattern_shown_number, Bool.not_false, Bool.or_true, if_true, number,
    number?_shown]
  rfl

theorem toLower_of_isDigit {c : Char} (h : c.isDigit = true) : c.toLower = c := by
  rw [Char.isDigit, Bool.and_eq_true, decide_eq_true_eq, decide_eq_true_eq] at h
  refine dif_neg ?_
  rintro ⟨hlow, _⟩
  exact absurd (UInt32.le_trans hlow h.2) (by decide)

theorem takeWhile_of_digits {cs : List Char} (h : ∀ c ∈ cs, c.isDigit = true) {p : Char → Bool}
    (hp : ∀ c, c.isDigit = true → p c = true) : cs.takeWhile p = cs ∧ cs.dropWhile p = [] := by
  have hall : ∀ c ∈ cs, p c = true := fun c hc => hp c (h c hc)
  exact ⟨List.takeWhile_eq_self_iff.mpr hall, List.dropWhile_eq_nil_iff.mpr hall⟩

/-- The size of some bytes in digits. -/
theorem size?_toDigits (n : Nat) : size? (Nat.toDigits 10 n) = bytes? (.ofRatio n 1) 1 := by
  have hdigits : ∀ c ∈ Nat.toDigits 10 n, c.isDigit = true := fun _ => Text.isDigit_of_mem_toDigits
  have hlower : (Nat.toDigits 10 n).map Char.toLower = Nat.toDigits 10 n :=
    (List.map_congr_left fun c hc => toLower_of_isDigit (hdigits c hc)).trans (List.map_id _)
  obtain ⟨hamount, hunit⟩ := takeWhile_of_digits hdigits (p := fun c => c.isDigit || c == '.')
    fun c hc => by rw [hc, Bool.true_or]
  obtain ⟨hwhole, hrest⟩ := takeWhile_of_digits hdigits (p := Char.isDigit) fun _ hc => hc
  have hdecimal : decimal? (Nat.toDigits 10 n) = some (.ofRatio n 1) := by
    rw [decimal?, hwhole, hrest]
    simp only
    rw [Text.natural?_toDigits]
    rfl
  simp only [size?, hlower, hamount, hunit, hdecimal]
  rfl

/-- **A size that can be computed is read** from what it is shown as. -/
theorem size?_shown {amount : Binary64} {unit : Nat} {size : UInt64}
    (h : bytes? amount unit = some size) :
    size? (FilterValue.size size).shown.toList = some size := by
  rw [FilterValue.shown, Text.toList_toString_nat, size?_toDigits, bytes?_of_bytes? h]

end Value

/-! ## What an image waits for -/

namespace Flags

/-- The names of a set of flags, as they are typed. -/
def typedNames (f : Tagme) : List String :=
  f.shownNames.map fun n => String.ofList (Text.lower n.toList)

/-- Some of the flags of what an image waits for, and no other bits. -/
def IsKnown (f : Tagme) : Prop := f.bits.toNat < 16 ∧ f.bits ≠ 0

theorem isKnown_of_ofTypedName? {name : String} {f : Tagme} (h : ofTypedName? name = some f) :
    IsKnown f := by
  have hall : ∀ e ∈ FlagFamily.tagme.flags, e.2.toNat < 16 ∧ e.2 ≠ 0 := by decide
  have hmem : ∀ {p : String × UInt32 → Bool},
      (FlagFamily.tagme.flags.find? p).map (fun e => (⟨e.2⟩ : Tagme)) = some f → IsKnown f := by
    intro p hp
    obtain ⟨e, he, rfl⟩ := Option.map_eq_some_iff.mp hp
    exact hall e (List.mem_of_find?_eq_some he)
  unfold ofTypedName? at h
  split at h
  · rename_i g hg
    obtain rfl := Option.some.inj h
    exact hmem hg
  · exact hmem h

theorem isKnown_union {f g : Tagme} (hf : f.bits.toNat < 16) (hg : IsKnown g) :
    IsKnown (f.union g) := by
  obtain ⟨hlow, hne⟩ := hg
  refine ⟨?_, fun hzero => hne ?_⟩
  · rw [union, UInt32.toNat_or]
    exact Nat.or_lt_two_pow (n := 4) hf hlow
  · have hor : f.bits ||| g.bits = 0 := hzero
    exact (UInt32.or_eq_zero_iff.mp hor).2

/-- All of some known flags together are known. -/
theorem isKnown_unionAll {f : Tagme} {fs : List Tagme} (h : ∀ g ∈ f :: fs, IsKnown g) :
    IsKnown (unionAll (f :: fs)) := by
  have hfirst : IsKnown (empty.union f) := isKnown_union (by decide) (h f List.mem_cons_self)
  have hrest := fun g hg => h g (List.mem_cons_of_mem f hg)
  rw [unionAll, List.foldl_cons]
  clear h
  generalize empty.union f = start at hfirst
  induction fs generalizing start with
  | nil => exact hfirst
  | cons g fs ih =>
    exact ih (fun k hk => hrest k (List.mem_cons_of_mem g hk)) _
      (isKnown_union hfirst.1 (hrest g List.mem_cons_self))

theorem combinations_tagme : FlagFamily.tagme.combinations = [] := by
  have hnone : (FlagFamily.tagme.flags.filter fun f => 1 < popCount f.2) = [] := by decide
  rw [FlagFamily.combinations, hnone, List.mergeSort_nil]

theorem shownNames_tagme (f : Tagme) : f.shownNames = consume f.bits FlagFamily.tagme.singles := by
  rw [shownNames, combinations_tagme, List.nil_append]

theorem read_consume : ∀ n : Fin 16, n ≠ 0 →
    let names := (consume (UInt32.ofNat n) FlagFamily.tagme.singles).map fun n =>
      String.ofList (Text.lower n.toList)
    names ≠ [] ∧ (names.mapM fun name => (ofTypedName? name : Option Tagme)).map unionAll =
      some ⟨UInt32.ofNat n⟩ := by
  decide

/-- **Known flags are read** from their names in lower case. -/
theorem unionAll_typedNames {f : Tagme} (h : IsKnown f) : typedNames f ≠ [] ∧
    ((typedNames f).mapM fun name => (ofTypedName? name : Option Tagme)).map unionAll = some f := by
  obtain ⟨bits⟩ := f
  obtain ⟨hlow, hne⟩ := h
  have hread := read_consume ⟨bits.toNat, hlow⟩ fun hzero => hne (by
    have hval : bits.toNat = 0 := congrArg Fin.val hzero
    exact UInt32.toNat_inj.mp hval)
  rw [typedNames, shownNames_tagme]
  simpa using hread

end Flags

end PixQuery
