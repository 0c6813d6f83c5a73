import Mathlib.Data.List.TakeWhile
import PixQuery.Flags
import PixQuery.Proofs.Json.Records

/-!
# Sets of flags are read back from their texts

The text of a set names flags until all bits that have a name are named, and adds the bits left over
as a number. Reading it joins the named flags and that number. So a set of any 32 bits is read back,
whatever names overlap and whichever bits have none.

Results:
* `Text.map_trim_splitAt`: parts joined by bars with spaces around them are cut apart again.
* `Flags.hexWord?_toDigits`: a word is read from its hexadecimal digits.
* `Flags.written_covers`: the named flags and the bits left over make up the set.
* `Flags.exists_parts`: the parts that a text is joined from.
* `Flags.ofText?_text`: a set is read from its text.
-/

namespace PixQuery

/-! ## Joined parts -/

namespace Text

variable {sep : Char} {part rest : List Char}

theorem splitAt_of_not_mem (h : sep ∉ part) : splitAt sep part = [part] := by
  induction part with
  | nil => rfl
  | cons c cs ih =>
    obtain ⟨hc, hcs⟩ := not_or.mp (mt List.mem_cons.mpr h)
    rw [splitAt, if_neg (Ne.symm hc), ih hcs]

theorem splitAt_append (h : sep ∉ part) :
    splitAt sep (part ++ sep :: rest) = part :: splitAt sep rest := by
  induction part with
  | nil => rw [List.nil_append, splitAt, if_pos rfl]
  | cons c cs ih =>
    obtain ⟨hc, hcs⟩ := not_or.mp (mt List.mem_cons.mpr h)
    rw [List.cons_append, splitAt, if_neg (Ne.symm hc), ih hcs]

/-- Neither empty nor cut by bars or white space. -/
def IsSolid (part : List Char) : Prop := part ≠ [] ∧ ∀ c ∈ part, isBlank c = false ∧ c ≠ '|'

theorem isSolid_iff :
    IsSolid part ↔ part ≠ [] ∧ (part.all fun c => !isBlank c && c != '|') = true := by
  simp [IsSolid]

instance : Decidable (IsSolid part) := decidable_of_iff _ isSolid_iff.symm

theorem dropWhile_isBlank (h : IsSolid part) : (part ++ rest).dropWhile isBlank = part ++ rest := by
  obtain ⟨hne, hall⟩ := h
  obtain ⟨c, cs, rfl⟩ := List.exists_cons_of_ne_nil hne
  exact List.dropWhile_cons_of_neg (by simp [hall c List.mem_cons_self])

theorem IsSolid.reverse (h : IsSolid part) : IsSolid part.reverse :=
  ⟨by simpa using h.1, fun c hc => h.2 c (List.mem_reverse.mp hc)⟩

/-- White space around a part is cut off. -/
theorem trim_around {before behind : List Char} (hbefore : ∀ c ∈ before, isBlank c = true)
    (h : IsSolid part) (hbehind : ∀ c ∈ behind, isBlank c = true) :
    trim (before ++ part ++ behind) = part := by
  have hback : ∀ c ∈ behind.reverse, isBlank c = true :=
    fun c hc => hbehind c (List.mem_reverse.mp hc)
  have hend := @dropWhile_isBlank part.reverse [] h.reverse
  rw [List.append_nil] at hend
  rw [trim, List.append_assoc, List.dropWhile_append_of_pos hbefore, dropWhile_isBlank h,
    List.reverse_append, List.dropWhile_append_of_pos hback, hend, List.reverse_reverse]

theorem trim_ne_nil (h : IsSolid part) : trim (part ++ rest) ≠ [] := by
  rw [trim, dropWhile_isBlank h, Ne, List.reverse_eq_nil_iff, List.dropWhile_eq_nil_iff]
  intro hall
  obtain ⟨c, hc⟩ := List.exists_mem_of_ne_nil part h.1
  have hblank := hall c (by simp [hc])
  rw [(h.2 c hc).1] at hblank
  cases hblank

theorem IsSolid.bar_not_mem {before behind : List Char} (hbefore : ∀ c ∈ before, isBlank c = true)
    (h : IsSolid part) (hbehind : ∀ c ∈ behind, isBlank c = true) :
    '|' ∉ before ++ part ++ behind := by
  have hbar : isBlank '|' = false := by decide
  simp only [List.mem_append, not_or]
  refine ⟨⟨fun hmem => ?_, fun hmem => (h.2 _ hmem).2 rfl⟩, fun hmem => ?_⟩
  · exact absurd (hbefore _ hmem) (by simp [hbar])
  · exact absurd (hbehind _ hmem) (by simp [hbar])

/-- **Parts joined by bars are cut apart again**, with the spaces around the bars left out. -/
theorem map_trim_splitAt : ∀ {parts : List (List Char)} {before : List Char}, parts ≠ [] →
    (∀ part ∈ parts, IsSolid part) → (∀ c ∈ before, isBlank c = true) →
      (splitAt '|' (before ++ [' ', '|', ' '].intercalate parts)).map trim = parts
  | [part], before, _, hparts, hbefore => by
    have hpart := hparts part (List.mem_singleton_self part)
    have hnone : ∀ c ∈ ([] : List Char), isBlank c = true := by simp
    have hsplit := splitAt_of_not_mem (hpart.bar_not_mem hbefore hnone)
    have htrim := trim_around hbefore hpart hnone
    rw [List.append_nil] at hsplit htrim
    rw [List.intercalate_singleton, hsplit, List.map_singleton, htrim]
  | part :: next :: parts, before, _, hparts, hbefore => by
    have hpart := hparts part List.mem_cons_self
    have hspace : ∀ c ∈ [' '], isBlank c = true := List.forall_mem_singleton.mpr (by decide)
    have hcut : before ++ [' ', '|', ' '].intercalate (part :: next :: parts) =
        (before ++ part ++ [' ']) ++ '|' ::
          ([' '] ++ [' ', '|', ' '].intercalate (next :: parts)) := by
      rw [List.intercalate_cons_cons]
      simp
    have ih := @map_trim_splitAt (next :: parts) [' '] (List.cons_ne_nil next parts)
      (fun q hq => hparts q (List.mem_cons_of_mem part hq)) hspace
    rw [hcut, splitAt_append (hpart.bar_not_mem hbefore hspace), List.map_cons, ih,
      trim_around hbefore hpart hspace]

end Text

namespace Flags

/-! ## Hexadecimal digits -/

theorem hexFrom?_append (n : Nat) (cs ds : List Char) :
    hexFrom? n (cs ++ ds) = (hexFrom? n cs).bind fun m => hexFrom? m ds := by
  induction cs generalizing n with
  | nil => rfl
  | cons c cs ih =>
    rw [List.cons_append, hexFrom?, hexFrom?]
    cases hexDigit? c with
    | none => rfl
    | some d => exact ih _

theorem hexDigit?_digitChar : ∀ d < 16, hexDigit? (Nat.digitChar d) = some d := by decide

/-- A number is read from its hexadecimal digits, none of which is cut off or read as a sign. -/
theorem hexFrom?_toDigits (n : Nat) : hexFrom? 0 (Nat.toDigits 16 n) = some n ∧
    ∀ c ∈ Nat.toDigits 16 n, ∃ d < 16, c = Nat.digitChar d := by
  induction n using Nat.strongRecOn with
  | _ n ih =>
    by_cases hlt : n < 16
    · rw [Nat.toDigits_of_lt_base hlt]
      refine ⟨?_, fun c hc => ⟨n, hlt, List.mem_singleton.mp hc⟩⟩
      rw [hexFrom?, hexDigit?_digitChar n hlt, Option.bind_some, hexFrom?, Nat.mul_zero,
        Nat.zero_add]
    · obtain ⟨hread, hdigits⟩ := ih (n / 16) (by omega)
      have hlast : n % 16 < 16 := Nat.mod_lt n (by decide)
      rw [Nat.toDigits_of_base_le (by decide) (by omega)]
      constructor
      · rw [hexFrom?_append, hread, Option.bind_some, hexFrom?, hexDigit?_digitChar _ hlast,
          Option.bind_some, hexFrom?, Nat.div_add_mod]
      · intro c hc
        rcases List.mem_append.mp hc with hc | hc
        · exact hdigits c hc
        · exact ⟨n % 16, hlast, List.mem_singleton.mp hc⟩

theorem toList_hexText (n : Nat) : (hexText n).toList = '0' :: 'x' :: Nat.toDigits 16 n := by
  rw [hexText, String.toList_append, String.toList_ofList]
  simp

theorem isSolid_hexText (n : Nat) : Text.IsSolid (hexText n).toList := by
  have hdigits : ∀ d < 16, Text.isBlank (Nat.digitChar d) = false ∧ Nat.digitChar d ≠ '|' := by
    decide
  rw [toList_hexText]
  refine ⟨by simp, fun c hc => ?_⟩
  rcases List.mem_cons.mp hc with rfl | hc
  · decide
  rcases List.mem_cons.mp hc with rfl | hc
  · decide
  obtain ⟨d, hd, rfl⟩ := (hexFrom?_toDigits n).2 c hc
  exact hdigits d hd

/-- **A word is read** from its hexadecimal digits. -/
theorem hexWord?_toDigits (w : UInt32) : hexWord? (Nat.toDigits 16 w.toNat) = some w := by
  obtain ⟨hread, hdigits⟩ := hexFrom?_toDigits w.toNat
  have hplus : ∀ d < 16, Nat.digitChar d ≠ '+' := by decide
  have hne : (Nat.toDigits 16 w.toNat).isEmpty = false := by simp [Nat.toDigits_ne_nil]
  have hword : Word.holdsNat 32 w.toNat = true := decide_eq_true w.toNat_lt
  unfold hexWord?
  split
  · rename_i ds hds
    obtain ⟨d, hd, hchar⟩ := hdigits '+' (hds ▸ List.mem_cons_self)
    exact absurd hchar.symm (hplus d hd)
  · simp only [hne, hread, Option.bind_some, hword, if_true, UInt32.ofNat_toNat]
    rfl

/-! ## Bits -/

/-- A bit of a word is set. -/
def hasBit (w : UInt32) (i : Nat) : Bool := w.toBitVec.getLsbD i

theorem hasBit_or (v w : UInt32) (i : Nat) : hasBit (v ||| w) i = (hasBit v i || hasBit w i) := by
  simp [hasBit]

theorem hasBit_and (v w : UInt32) (i : Nat) : hasBit (v &&& w) i = (hasBit v i && hasBit w i) := by
  simp [hasBit]

theorem hasBit_andNot {v w : UInt32} {i : Nat} :
    hasBit (v &&& ~~~w) i = true ↔ hasBit v i = true ∧ hasBit w i = false := by
  simp only [hasBit, UInt32.toBitVec_and, UInt32.toBitVec_not, BitVec.getLsbD_and,
    BitVec.getLsbD_not, Bool.and_eq_true, decide_eq_true_eq, Bool.not_eq_true']
  exact and_congr_right fun hv => and_iff_right (BitVec.lt_of_getLsbD hv)

theorem eq_of_hasBit {v w : UInt32} (h : ∀ i, hasBit v i = hasBit w i) : v = w :=
  UInt32.eq_of_toBitVec_eq (BitVec.eq_of_getLsbD_eq fun i _ => h i)

variable {family : FlagFamily}

/-- A bit is in the union of some sets if it is in one of them. -/
theorem hasBit_unionAll (fs : List (Flags family)) (i : Nat) :
    hasBit (unionAll fs).bits i = true ↔ ∃ f ∈ fs, hasBit f.bits i = true := by
  have hfold : ∀ (fs : List (Flags family)) (start : Flags family),
      hasBit (fs.foldl union start).bits i = true ↔
        hasBit start.bits i = true ∨ ∃ f ∈ fs, hasBit f.bits i = true := by
    intro fs
    induction fs with
    | nil => simp
    | cons f fs ih =>
      intro start
      rw [List.foldl_cons, ih, union, hasBit_or]
      simp [or_assoc]
  rw [unionAll, hfold]
  simp [empty, hasBit]

/-! ## Names -/

/-- **The named flags and the bits left over make up the set**: none of them has a bit outside it,
and no bit of `rest` is lost. -/
theorem written_covers (whole : UInt32) : ∀ (flags : List (String × UInt32)) (rest : UInt32),
    ∃ named : List (String × UInt32), (written whole rest flags).1 = named.map Prod.fst ∧
      named ⊆ flags ∧ (∀ f ∈ named, whole &&& f.2 = f.2) ∧
      (∀ i, hasBit (written whole rest flags).2 i = true → hasBit rest i = true) ∧
      ∀ i, hasBit rest i = true →
        hasBit (written whole rest flags).2 i = true ∨ ∃ f ∈ named, hasBit f.2 i = true
  | [], rest => ⟨[], rfl, by simp, by simp, fun _ h => h, fun _ h => .inl h⟩
  | (name, bits) :: flags, rest => by
    by_cases hnamed : (whole &&& bits == bits && rest &&& bits != 0) = true
    · obtain ⟨named, hnames, hsub, hwhole, hleft, hcovers⟩ :=
        written_covers whole flags (rest &&& ~~~bits)
      have hwritten : written whole rest ((name, bits) :: flags) =
          (name :: (written whole (rest &&& ~~~bits) flags).1,
            (written whole (rest &&& ~~~bits) flags).2) := by
        rw [written, if_pos hnamed]
      rw [hwritten]
      refine ⟨(name, bits) :: named, by rw [hnames, List.map_cons], ?_, ?_, ?_, ?_⟩
      · exact List.cons_subset_cons _ hsub
      · intro f hf
        rcases List.mem_cons.mp hf with rfl | hf
        · exact eq_of_beq (Bool.and_eq_true_iff.mp hnamed).1
        · exact hwhole f hf
      · exact fun i hi => (hasBit_andNot.mp (hleft i hi)).1
      · intro i hi
        by_cases hbit : hasBit bits i = true
        · exact .inr ⟨(name, bits), List.mem_cons_self, hbit⟩
        · rcases hcovers i (hasBit_andNot.mpr ⟨hi, by simpa using hbit⟩) with h | ⟨f, hf, h⟩
          · exact .inl h
          · exact .inr ⟨f, List.mem_cons_of_mem _ hf, h⟩
    · obtain ⟨named, hnames, hsub, hrest⟩ := written_covers whole flags rest
      have hwritten : written whole rest ((name, bits) :: flags) = written whole rest flags := by
        rw [written, if_neg hnamed]
      rw [hwritten]
      exact ⟨named, hnames, fun f hf => List.mem_cons_of_mem _ (hsub hf), hrest⟩

/-- Each flag of a family is read from its name. -/
theorem ofPart?_name : ∀ f ∈ family.flags, Text.IsSolid f.1.toList ∧
    ofPart? f.1.toList = some (⟨f.2⟩ : Flags family) := by
  cases family <;> decide +kernel

theorem ofPart?_hexText (w : UInt32) :
    ofPart? (hexText w.toNat).toList = some (⟨w⟩ : Flags family) := by
  rw [toList_hexText, ofPart?, hexWord?_toDigits, Option.map_some]

/-! ## Sets -/

/-- A part of the text of a set, with the bits that it is read as. -/
def IsPart (family : FlagFamily) (part : String × UInt32) : Prop :=
  Text.IsSolid part.1.toList ∧ ofPart? part.1.toList = some (⟨part.2⟩ : Flags family)

theorem exists_intercalate_cons (sep first : List Char) (rest : List (List Char)) :
    ∃ tail, sep.intercalate (first :: rest) = first ++ tail := by
  cases rest with
  | nil => exact ⟨[], by simp⟩
  | cons next rest => exact ⟨_, List.intercalate_cons_cons.trans (List.append_assoc ..)⟩

/-- What is read from joined parts. -/
theorem ofText?_intercalate {parts : List (String × UInt32)} (h : ∀ p ∈ parts, IsPart family p) :
    ofText? (" | ".intercalate (parts.map Prod.fst)) =
      some (unionAll (parts.map fun p => (⟨p.2⟩ : Flags family))) := by
  cases parts with
  | nil => rfl
  | cons p parts =>
    have hchars : (" | ".intercalate ((p :: parts).map Prod.fst)).toList =
        [' ', '|', ' '].intercalate ((p :: parts).map fun q => q.1.toList) := by
      rw [String.toList_intercalate, List.map_map]
      rfl
    have hsolid : ∀ q ∈ (p :: parts).map (fun q => q.1.toList), Text.IsSolid q := by
      intro q hq
      obtain ⟨r, hr, rfl⟩ := List.mem_map.mp hq
      exact (h r hr).1
    have hfilled : Text.trim ([' ', '|', ' '].intercalate ((p :: parts).map fun q => q.1.toList)) ≠
        [] := by
      obtain ⟨tail, htail⟩ := exists_intercalate_cons [' ', '|', ' '] p.1.toList
        (parts.map fun q => q.1.toList)
      rw [List.map_cons, htail]
      exact Text.trim_ne_nil (h p List.mem_cons_self).1
    have hcut := @Text.map_trim_splitAt _ [] (by simp) hsolid (by simp)
    have hread : ((p :: parts).map fun q => q.1.toList).mapM ofPart? =
        some ((p :: parts).map fun q => (⟨q.2⟩ : Flags family)) :=
      Json.mapM_map fun q hq => (h q hq).2
    rw [← hcut, List.mapM_map, List.nil_append] at hread
    rw [ofText?, hchars, if_neg (by simpa using hfilled)]
    exact congrArg (Option.map unionAll) hread

/-- The bits that have no name, as a part of the text. -/
def leftover (left : UInt32) : List (String × UInt32) :=
  if left == 0 then [] else [(hexText left.toNat, left)]

theorem mem_leftover_iff {left : UInt32} {p : String × UInt32} :
    p ∈ leftover left ↔ left ≠ 0 ∧ p = (hexText left.toNat, left) := by
  unfold leftover
  split
  · rename_i hzero
    simp [eq_of_beq hzero]
  · rename_i hne
    simp only [List.mem_singleton, iff_and_self]
    exact fun _ => by simpa using hne

/-- **The text of a set** joins parts that have just the bits of the set. -/
theorem exists_parts (f : Flags family) : ∃ parts : List (String × UInt32),
    f.text = " | ".intercalate (parts.map Prod.fst) ∧ (∀ p ∈ parts, IsPart family p) ∧
      ∀ i, (∃ p ∈ parts, hasBit p.2 i = true) ↔ hasBit f.bits i = true := by
  obtain ⟨named, hnames, hsub, hwhole, hleft, hcovers⟩ := written_covers f.bits family.flags f.bits
  generalize hwritten : written f.bits f.bits family.flags = w at hnames hleft hcovers
  obtain ⟨names, left⟩ := w
  obtain rfl : names = named.map Prod.fst := hnames
  refine ⟨named ++ leftover left, ?_, fun p hp => ?_, fun i => ⟨?_, fun hbit => ?_⟩⟩
  · have hextra : (leftover left).map Prod.fst =
        if left == 0 then [] else [hexText left.toNat] := by
      unfold leftover
      split <;> rfl
    rw [List.map_append, hextra, text, hwritten]
  · rcases List.mem_append.mp hp with hp | hp
    · exact ofPart?_name p (hsub hp)
    · obtain ⟨_, rfl⟩ := mem_leftover_iff.mp hp
      exact ⟨isSolid_hexText _, ofPart?_hexText _⟩
  · rintro ⟨p, hp, hbit⟩
    rcases List.mem_append.mp hp with hp | hp
    · have hinside := congrArg (hasBit · i) (hwhole p hp)
      simp only [hasBit_and, hbit, Bool.and_true] at hinside
      exact hinside
    · obtain ⟨_, rfl⟩ := mem_leftover_iff.mp hp
      exact hleft i hbit
  · rcases hcovers i hbit with hrest | ⟨p, hp, hrest⟩
    · have hne : left ≠ 0 := by
        rintro rfl
        simp [hasBit] at hrest
      exact ⟨_, List.mem_append_right _ (mem_leftover_iff.mpr ⟨hne, rfl⟩), hrest⟩
    · exact ⟨p, List.mem_append_left _ hp, hrest⟩

/-- **A set of flags is read from its text**, bits without a name included. -/
theorem ofText?_text (f : Flags family) : ofText? f.text = some f := by
  obtain ⟨parts, htext, hparts, hbits⟩ := f.exists_parts
  have hunion : (unionAll (parts.map fun p => (⟨p.2⟩ : Flags family))).bits = f.bits := by
    refine eq_of_hasBit fun i => ?_
    rw [Bool.eq_iff_iff, hasBit_unionAll, ← hbits i]
    simp
  rw [htext, ofText?_intercalate hparts]
  exact congrArg some (congrArg Flags.mk hunion)

end Flags

end PixQuery
