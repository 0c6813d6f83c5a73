import PixQuery.Json.Reader
import PixQuery.Json.Writer
import PixQuery.Proofs.Value.Literals

/-!
# Documents are read back from their texts

A document is written as tokens, with blanks between them or without. The text is cut into just
these tokens again, and the reader that goes through them ends with the document.

Results:
* `Json.stringBody_escaped`: a text is read back from between its quotes.
* `Json.word?_whole`: a whole number is read back from its digits.
* `Json.read_spelling`: the reader goes through the tokens of a document.
* `Json.parse?_compact`, `Json.parse?_pretty`: a document is read back from its text.
-/

namespace PixQuery.Json

/-! ## Documents that texts hold -/

/-- The document has at most `n` levels, and its numbers are whole and fit into 64 bits. -/
inductive Fits : Nat → Json → Prop
  | null {n : Nat} : Fits n .null
  | bool {n : Nat} (b : Bool) : Fits n (.bool b)
  | whole {n : Nat} {i : Int} (hlow : -2 ^ 63 ≤ i) (hhigh : i < 2 ^ 64) : Fits n (.whole i)
  | text {n : Nat} (s : String) : Fits n (.text s)
  | array {n : Nat} {xs : List Json} (h : ∀ x ∈ xs, Fits n x) : Fits (n + 1) (.array xs)
  | object {n : Nat} {ms : List (String × Json)} (h : ∀ m ∈ ms, Fits n m.2) :
    Fits (n + 1) (.object ms)

section Fits

variable {n : Nat}

attribute [simp] Fits.null Fits.bool Fits.text

@[simp] theorem fits_array_iff {xs : List Json} :
    Fits (n + 1) (.array xs) ↔ ∀ x ∈ xs, Fits n x :=
  ⟨fun h => by cases h; assumption, .array⟩

@[simp] theorem fits_object_iff {ms : List (String × Json)} :
    Fits (n + 1) (.object ms) ↔ ∀ m ∈ ms, Fits n m.2 :=
  ⟨fun h => by cases h; assumption, .object⟩

@[simp] theorem fits_ofTexts (texts : List String) : Fits (n + 1) (.ofTexts texts) :=
  .array fun x hx => by
    obtain ⟨s, _, rfl⟩ := List.mem_map.mp hx
    exact .text s

theorem fits_ofNat {k : Nat} (h : k < 2 ^ 64) : Fits n (.ofNat k) := .whole (by omega) (by omega)

@[simp] theorem fits_ofNat_toNat (w : UInt64) : Fits n (.ofNat w.toNat) := fits_ofNat w.toNat_lt

@[simp] theorem fits_whole_toInt (i : Int64) : Fits n (.whole i.toInt) :=
  .whole i.le_toInt (i.toInt_lt.trans (by decide))

end Fits

/-! ## Strings -/

/-- A backslash and a letter stand for a character. -/
theorem stringBody_unescape {e c : Char} (h : unescape? e = some c) (done rest : List Char) :
    stringBody done ('\\' :: e :: rest) = stringBody (c :: done) rest := by
  have hu : e ≠ 'u' := by
    rintro rfl
    cases h
  rw [stringBody]
  · rw [h]
  · simp [hu]
  · simp [hu]

/-- Four digits behind a backslash stand for a character that is no half of a pair. -/
theorem stringBody_unit {a b c d ch : Char} {n : Nat} (hhex : hex4? a b c d = some n)
    (hchar : unitChar? n = some ch) (done rest : List Char) :
    stringBody done ('\\' :: 'u' :: a :: b :: c :: d :: rest) = stringBody (ch :: done) rest := by
  by_cases hpair : ∃ e f g h tail, rest = '\\' :: 'u' :: e :: f :: g :: h :: tail
  · obtain ⟨e, f, g, h, tail, rfl⟩ := hpair
    simp only [stringBody, hhex, hchar]
  · rw [stringBody]
    · rw [hhex, Option.bind_some, hchar]
    · rintro e f g h tail rfl
      exact hpair ⟨e, f, g, h, tail, rfl⟩

/-- A character is written with a backslash and a letter, with digits, or as it is. -/
theorem escapeChar_cases (c : Char) :
    (∃ e, escapeChar c = ['\\', e] ∧ unescape? e = some c) ∨
      (c.toNat < 32 ∧ escapeChar c =
        ['\\', 'u', '0', '0', hexDigit (c.toNat / 16), hexDigit (c.toNat % 16)]) ∨
      ((c ≠ '\x22' ∧ c ≠ '\\' ∧ 32 ≤ c.toNat) ∧ escapeChar c = [c]) := by
  generalize hcs : escapeChar c = cs
  unfold escapeChar at hcs
  iterate 7
    split at hcs
    · subst_vars
      exact .inl ⟨_, rfl, rfl⟩
  split at hcs
  · rename_i hcontrol
    exact .inr (.inl ⟨hcontrol, hcs.symm⟩)
  · rename_i hquote hslash _ _ _ _ _ hcontrol
    exact .inr (.inr ⟨⟨hquote, hslash, Nat.le_of_not_lt hcontrol⟩, hcs.symm⟩)

/-- The digits of a control character are those of its number. -/
theorem hex4?_control :
    ∀ n < 32, hex4? '0' '0' (hexDigit (n / 16)) (hexDigit (n % 16)) = some n := by
  decide

/-- **A character is read back** from what it is written as. -/
theorem stringBody_escapeChar (c : Char) (done rest : List Char) :
    stringBody done (escapeChar c ++ rest) = stringBody (c :: done) rest := by
  rcases escapeChar_cases c with ⟨e, hcs, he⟩ | ⟨hcontrol, hcs⟩ | ⟨⟨hquote, hslash, hplain⟩, hcs⟩
  · rw [hcs]
    exact stringBody_unescape he done rest
  · have hunit : unitChar? c.toNat = some c := by
      rw [unitChar?, if_neg (by omega), Char.ofNat_toNat]
    rw [hcs]
    exact stringBody_unit (hex4?_control c.toNat hcontrol) hunit done rest
  · rw [hcs, List.singleton_append, stringBody]
    · rw [if_neg (by omega)]
    all_goals simp [hquote, hslash]

/-- **A text is read back** from between its quotes. -/
theorem stringBody_escaped (s done rest : List Char) :
    stringBody done (s.flatMap escapeChar ++ '\x22' :: rest) = some (done.reverse ++ s, rest) := by
  induction s generalizing done with
  | nil => simp [stringBody]
  | cons c cs ih =>
    rw [List.flatMap_cons, List.append_assoc, stringBody_escapeChar, ih]
    simp

/-! ## Tokens of a text -/

/-- Blanks, which may stand between tokens. -/
def IsGap (cs : List Char) : Prop := ∀ c ∈ cs, c = ' ' ∨ c = '\n'

theorem isGap_nil : IsGap [] := fun _ hc => by cases hc

/-- The characters are cut into the tokens, whatever follows that is not part of a word. -/
def Cuts (cs : List Char) (ts : List Token) : Prop :=
  ∀ rest : List Char, (∀ c ∈ rest.head?, isWordChar c = false) →
    tokens (cs ++ rest) = (tokens rest).map (ts ++ ·)

theorem tokens_gap {cs : List Char} (h : IsGap cs) (rest : List Char) :
    tokens (cs ++ rest) = tokens rest := by
  induction cs with
  | nil => rfl
  | cons c cs ih =>
    obtain ⟨hc, hcs⟩ := List.forall_mem_cons.mp h
    rcases hc with rfl | rfl
    · rw [List.cons_append, tokens, ih hcs]
    · rw [List.cons_append, tokens, ih hcs]

theorem tokens_quoted (s : String) (rest : List Char) : tokens ((quoted s).toList ++ rest) =
    (tokens rest).map (.scalar (.text s) :: ·) := by
  have hbody : stringBody [] (s.toList.flatMap escapeChar ++ '\x22' :: rest) =
      some (s.toList, rest) :=
    stringBody_escaped s.toList [] rest
  have htext : (quoted s).toList ++ rest =
      '\x22' :: (s.toList.flatMap escapeChar ++ '\x22' :: rest) := by
    simp [quoted]
  rw [htext, tokens]
  split
  · rename_i hnone
    rw [hbody] at hnone
    cases hnone
  · rename_i hsome
    rw [hbody] at hsome
    obtain ⟨rfl, rfl⟩ := Prod.mk.inj (Option.some.inj hsome)
    rw [String.ofList_toList]

/-- A word is read as far as its characters go. -/
theorem tokens_word {c : Char} (hc : isWordChar c = true) (cs : List Char) :
    tokens (c :: cs) = (word? (c :: cs.takeWhile isWordChar)).bind fun j =>
      (tokens (cs.dropWhile isWordChar)).map (.scalar j :: ·) := by
  have hne : ∀ d, isWordChar d = false → c ≠ d := by
    rintro d hd rfl
    rw [hc] at hd
    cases hd
  rw [tokens]
  · cases word? (c :: cs.takeWhile isWordChar) <;> rfl
  all_goals exact hne _ (by decide)

/-- A word is a token of its own. -/
theorem cuts_word {cs : List Char} {j : Json} (hall : cs.all isWordChar = true)
    (hword : word? cs = some j) : Cuts cs [.scalar j] := by
  intro rest hrest
  cases cs with
  | nil => cases hword
  | cons c cs =>
    obtain ⟨hc, hcs⟩ := List.forall_mem_cons.mp (List.all_eq_true.mp hall)
    obtain ⟨htake, hdrop⟩ :
        rest.takeWhile isWordChar = [] ∧ rest.dropWhile isWordChar = rest := by
      cases rest with
      | nil => exact ⟨rfl, rfl⟩
      | cons d ds =>
        have hd : isWordChar d = false := hrest d rfl
        exact ⟨List.takeWhile_cons_of_neg (by simp [hd]), List.dropWhile_cons_of_neg (by simp [hd])⟩
    rw [List.cons_append, tokens_word hc, List.takeWhile_append_of_pos hcs,
      List.dropWhile_append_of_pos hcs, htake, hdrop, List.append_nil, hword]
    rfl

/-! ## Numbers -/

/-- The digits of a number do not begin with a zero, zero apart. -/
theorem toDigits_eq_cons (n : Nat) : ∃ c cs, Nat.toDigits 10 n = c :: cs ∧ (n = 0 ∨ c ≠ '0') := by
  have hdigit : ∀ d < 10, d = 0 ∨ Nat.digitChar d ≠ '0' := by decide
  induction n using Nat.strong_induction_on with
  | _ n ih =>
    by_cases hn : n < 10
    · exact ⟨_, [], Nat.toDigits_of_lt_base hn, hdigit n hn⟩
    · obtain ⟨c, cs, hcs, hc⟩ := ih (n / 10) (by omega)
      rw [Nat.toDigits_of_base_le (by decide) (by omega), hcs]
      exact ⟨c, _, rfl, .inr (hc.resolve_left (by omega))⟩

theorem isMagnitude_toDigits (n : Nat) : isMagnitude (Nat.toDigits 10 n) = true := by
  obtain ⟨c, cs, hcs, hc⟩ := toDigits_eq_cons n
  have hall : ∀ d ∈ c :: cs, d.isDigit = true := fun d hd =>
    Text.isDigit_of_mem_toDigits (hcs ▸ hd)
  obtain ⟨hdigit, hrest⟩ := List.forall_mem_cons.mp hall
  have hwhole : skipWholePart? (Nat.toDigits 10 n) = some [] := by
    rcases hc with rfl | hc
    · rfl
    · rw [hcs, skipWholePart?, skipDigits?, if_pos hdigit, List.dropWhile_eq_nil_iff.mpr hrest]
      simpa using hc
  rw [isMagnitude, hwhole]
  rfl

theorem digitsValue_toDigits (n : Nat) : digitsValue (Nat.toDigits 10 n) = n := by
  have hread := Text.natural?_toDigits n
  unfold Text.natural? at hread
  split at hread
  · exact Option.some.inj hread
  · cases hread

/-- A whole number is a number. -/
theorem number?_whole {i : Int} (hlow : -2 ^ 63 ≤ i) (hhigh : i < 2 ^ 64) :
    number? (toString i).toList = some (.whole i) := by
  cases i with
  | ofNat n =>
    have hdigits : (Nat.toDigits 10 n).all Char.isDigit = true :=
      List.all_eq_true.mpr fun _ => Text.isDigit_of_mem_toDigits
    have hword : Word.holdsNat 64 n = true := decide_eq_true (by
      simp only [Int.ofNat_eq_natCast] at hhigh
      have : Word.size 64 = 2 ^ 64 := rfl
      omega)
    rw [Text.toList_toString_ofNat, number?]
    · simp [isMagnitude_toDigits, digitsValue_toDigits, hdigits, hword]
    · intro ds hds
      have hminus : Char.isDigit '-' = true :=
        Text.isDigit_of_mem_toDigits (hds ▸ List.mem_cons_self)
      cases hminus
  | negSucc n =>
    have hdigits : (Nat.toDigits 10 (n + 1)).all Char.isDigit = true :=
      List.all_eq_true.mpr fun _ => Text.isDigit_of_mem_toDigits
    have hword : Word.holdsInt 64 (Int.negSucc n) = true := by
      have hsize : (Word.size 63 : Int) = 2 ^ 63 := rfl
      simp only [Word.holdsInt, Nat.reduceSub, hsize, Bool.and_eq_true, decide_eq_true_eq]
      omega
    have hvalue : -((n + 1 : Nat) : Int) = Int.negSucc n := rfl
    rw [Text.toList_toString_negSucc, number?]
    simp only [isMagnitude_toDigits, digitsValue_toDigits, hdigits, hvalue, hword]
    rfl

/-- **A whole number is read back** from its digits and its sign. -/
theorem word?_whole {i : Int} (hlow : -2 ^ 63 ≤ i) (hhigh : i < 2 ^ 64) :
    word? (toString i).toList = some (.whole i) := by
  have hne : ∀ {w : List Char} {c : Char}, c ∈ w → (c.isDigit || c == '-') = false →
      (toString i).toList ≠ w := by
    rintro w c hc hno rfl
    have hmem := Value.mem_toString_int hc
    simp only [Bool.or_eq_false_iff, beq_eq_false_iff_ne] at hno
    rcases hmem with h | h
    · rw [h] at hno
      exact absurd hno.1 (by decide)
    · exact hno.2 h
  rw [word?, if_neg (hne (c := 'u') (by decide) (by decide)),
    if_neg (hne (c := 'u') (by decide) (by decide)),
    if_neg (hne (c := 'f') (by decide) (by decide)), number?_whole hlow hhigh]

theorem cuts_whole {i : Int} (hlow : -2 ^ 63 ≤ i) (hhigh : i < 2 ^ 64) :
    Cuts (toString i).toList [.scalar (.whole i)] := by
  refine cuts_word (List.all_eq_true.mpr fun c hc => ?_) (word?_whole hlow hhigh)
  rcases Value.mem_toString_int hc with h | rfl
  · simp [isWordChar, Char.isAlphanum, h]
  · decide

/-! ## The tokens of a document -/

mutual

/-- The tokens that a document is written as. -/
def spelling : Json → List Token
  | .array xs => .openArray :: ([Token.comma].intercalate (itemSpellings xs) ++ [.closeArray])
  | .object ms => .openObject :: ([Token.comma].intercalate (memberSpellings ms) ++ [.closeObject])
  | j => [.scalar j]

/-- The tokens of each item of an array. -/
def itemSpellings : List Json → List (List Token)
  | [] => []
  | x :: xs => spelling x :: itemSpellings xs

/-- The tokens of each member of an object. -/
def memberSpellings : List (String × Json) → List (List Token)
  | [] => []
  | (k, v) :: ms => (.scalar (.text k) :: .colon :: spelling v) :: memberSpellings ms

end

/-- The tokens of a member of an object. -/
def memberSpelling (m : String × Json) : List Token :=
  .scalar (.text m.1) :: .colon :: spelling m.2

theorem itemSpellings_eq (xs : List Json) : itemSpellings xs = xs.map spelling := by
  induction xs with
  | nil => rfl
  | cons x xs ih => rw [itemSpellings, ih, List.map_cons]

theorem memberSpellings_eq (ms : List (String × Json)) :
    memberSpellings ms = ms.map memberSpelling := by
  induction ms with
  | nil => rfl
  | cons m ms ih => rw [memberSpellings, ih, List.map_cons, memberSpelling]

/-! ## Reading tokens -/

/-- The reader goes through the tokens of a document and completes it, where `n` more levels are
left. -/
def Reads (n : Nat) (j : Json) : Prop :=
  ∀ frames : List Frame, frames.length + n ≤ 127 →
    (spelling j).foldlM Reader.step ⟨frames, .value⟩ = some (Reader.complete frames j)

theorem intercalate_map_cons {α β : Type} (sep : List β) (f : α → List β) (a b : α) (bs : List α) :
    sep.intercalate ((a :: b :: bs).map f) = f a ++ (sep ++ sep.intercalate ((b :: bs).map f)) := by
  rw [List.map_cons, List.map_cons, List.intercalate_cons_cons, List.append_assoc]

/-- The first item of an array is read as any value. -/
theorem foldlM_firstItem {ts : List Token} {frames : List Frame} {r : Reader}
    (h : ts.foldlM Reader.step ⟨frames, .value⟩ = some r) (hne : r ≠ ⟨frames, .value⟩) :
    ts.foldlM Reader.step ⟨frames, .firstItem⟩ = some r := by
  cases ts with
  | nil => exact absurd (Option.some.inj h).symm hne
  | cons t ts =>
    cases t with
    | closeArray =>
      have hnone : Reader.step ⟨frames, .value⟩ .closeArray = none := by
        simp only [Reader.step, Reader.value, Reader.enter]
        split <;> rfl
      rw [List.foldlM_cons, hnone] at h
      cases h
    | _ => exact h

/-- **Items behind one another** are read, and join the array. -/
theorem read_items {n : Nat} {xs : List Json} {outer : List Frame}
    (hlevels : outer.length + 1 + n ≤ 127) (hne : xs ≠ []) (h : ∀ x ∈ xs, Reads n x)
    (done : List Json) :
    ([Token.comma].intercalate (xs.map spelling)).foldlM Reader.step
      ⟨.array done :: outer, .value⟩ = some ⟨.array (xs.reverse ++ done) :: outer, .next⟩ := by
  induction xs generalizing done with
  | nil => exact absurd rfl hne
  | cons x xs ih =>
    obtain ⟨hx, hxs⟩ := List.forall_mem_cons.mp h
    have hread := hx (.array done :: outer) hlevels
    cases xs with
    | nil =>
      rw [List.map_singleton, List.intercalate_singleton]
      exact hread
    | cons y ys =>
      have hrest := ih (List.cons_ne_nil y ys) hxs (x :: done)
      rw [intercalate_map_cons, List.foldlM_append, hread, List.reverse_cons, List.append_assoc]
      exact hrest

/-- **Members behind one another** are read, and join the object. -/
theorem read_members {n : Nat} {ms : List (String × Json)} {outer : List Frame}
    (hlevels : outer.length + 1 + n ≤ 127) (hne : ms ≠ []) (h : ∀ m ∈ ms, Reads n m.2)
    {r : Reader} {frame : Frame} {done : List (String × Json)}
    (hkey : ∀ k, r.step (.scalar (.text k)) = some ⟨frame :: outer, .colon done k⟩) :
    ∃ k, ([Token.comma].intercalate (ms.map memberSpelling)).foldlM Reader.step r =
      some ⟨.object (ms.reverse ++ done) k :: outer, .next⟩ := by
  induction ms generalizing r frame done with
  | nil => exact absurd rfl hne
  | cons m ms ih =>
    obtain ⟨hm, hms⟩ := List.forall_mem_cons.mp h
    have hread : (memberSpelling m).foldlM Reader.step r =
        some ⟨.object (m :: done) m.1 :: outer, .next⟩ := by
      rw [memberSpelling, List.foldlM_cons, hkey]
      exact hm (.object done m.1 :: outer) hlevels
    cases ms with
    | nil =>
      rw [List.map_singleton, List.intercalate_singleton]
      exact ⟨_, hread⟩
    | cons m' ms =>
      obtain ⟨k, hrest⟩ := ih (List.cons_ne_nil m' ms) hms
        (r := ⟨.object (m :: done) m.1 :: outer, .key (m :: done)⟩) fun _ => rfl
      refine ⟨k, ?_⟩
      rw [intercalate_map_cons, List.foldlM_append, hread, List.reverse_cons, List.append_assoc]
      exact hrest

/-- **The reader goes through the tokens of a document**, if it has no more levels than are left. -/
theorem reads_of_fits {n : Nat} {j : Json} (h : Fits n j) : Reads n j := by
  induction h with
  | null | bool | whole | text => exact fun _ _ => rfl
  | @array n xs _ ih =>
    intro frames hlevels
    have hopen : ¬127 ≤ frames.length := by omega
    have henter : Reader.step ⟨frames, .value⟩ .openArray =
        some ⟨.array [] :: frames, .firstItem⟩ :=
      if_neg hopen
    rw [spelling, itemSpellings_eq, List.foldlM_cons, henter]
    by_cases hxs : xs = []
    · subst hxs
      rfl
    · have hlevels' : frames.length + 1 + n ≤ 127 := by omega
      have hitems := foldlM_firstItem (read_items hlevels' hxs ih []) (by simp)
      show List.foldlM _ _ _ = _
      rw [List.foldlM_append, hitems, List.append_nil]
      show some (Reader.complete frames (.array xs.reverse.reverse)) = _
      rw [List.reverse_reverse]
  | @object n ms _ ih =>
    intro frames hlevels
    have hopen : ¬127 ≤ frames.length := by omega
    have henter : Reader.step ⟨frames, .value⟩ .openObject =
        some ⟨.object [] "" :: frames, .firstKey⟩ := if_neg hopen
    rw [spelling, memberSpellings_eq, List.foldlM_cons, henter]
    by_cases hms : ms = []
    · subst hms
      rfl
    · have hlevels' : frames.length + 1 + n ≤ 127 := by omega
      obtain ⟨k, hmembers⟩ := read_members hlevels' hms ih
        (r := ⟨.object [] "" :: frames, .firstKey⟩) fun _ => rfl
      show List.foldlM _ _ _ = _
      rw [List.foldlM_append, hmembers, List.append_nil]
      show some (Reader.complete frames (.object ms.reverse.reverse)) = _
      rw [List.reverse_reverse]

theorem ofTokens?_spelling {j : Json} (h : Fits 127 j) : ofTokens? (spelling j) = some j := by
  rw [ofTokens?, reads_of_fits h [] (Nat.le_refl 127)]
  rfl

/-! ## The texts of a document -/

/-- Behind a gap stands no word if none stands at its end. -/
theorem head_gap {gap : List Char} (hgap : IsGap gap) {c : Char} (hc : isWordChar c = false)
    (rest : List Char) : ∀ d ∈ (gap ++ c :: rest).head?, isWordChar d = false := by
  intro d hd
  cases gap with
  | nil =>
    obtain rfl := Option.some.inj hd
    exact hc
  | cons e gap =>
    obtain rfl := Option.some.inj hd
    rcases (List.forall_mem_cons.mp hgap).1 with rfl | rfl <;> decide

/-- Parts with commas and gaps between them are cut as each part is. -/
theorem cuts_separated {α : Type} {text : α → List Char} {spell : α → List Token}
    {gap : List Char} (hgap : IsGap gap) {as : List α} (h : ∀ a ∈ as, Cuts (text a) (spell a)) :
    Cuts ((',' :: gap).intercalate (as.map text)) ([Token.comma].intercalate (as.map spell)) := by
  induction as with
  | nil =>
    intro rest _
    simp
  | cons a as ih =>
    obtain ⟨ha, has⟩ := List.forall_mem_cons.mp h
    cases as with
    | nil =>
      rw [List.map_singleton, List.map_singleton, List.intercalate_singleton,
        List.intercalate_singleton]
      exact ha
    | cons b bs =>
      intro rest hrest
      have hstop : ∀ d ∈ (',' :: gap ++
          ((',' :: gap).intercalate ((b :: bs).map text) ++ rest)).head?, isWordChar d = false := by
        intro d hd
        obtain rfl := Option.some.inj hd
        decide
      rw [intercalate_map_cons, intercalate_map_cons, List.append_assoc, List.append_assoc,
        ha _ hstop, List.cons_append, tokens, tokens_gap hgap, ih has rest hrest]
      simp [Function.comp_def]

/-- What stands between two brackets is cut as it is alone. -/
theorem cuts_between {opening closing : Char} {first last : Token}
    (hopening : ∀ cs, tokens (opening :: cs) = (tokens cs).map (first :: ·))
    (hclosing : ∀ cs, tokens (closing :: cs) = (tokens cs).map (last :: ·))
    (hword : isWordChar closing = false) {before behind inner : List Char} (hbefore : IsGap before)
    (hbehind : IsGap behind) {ts : List Token} (h : Cuts inner ts) :
    Cuts (opening :: (before ++ inner ++ behind ++ [closing])) (first :: (ts ++ [last])) := by
  intro rest _
  rw [List.cons_append, hopening, List.append_assoc, List.append_assoc, List.append_assoc,
    tokens_gap hbefore, List.singleton_append, h _ (head_gap hbehind hword rest),
    tokens_gap hbehind, hclosing]
  simp [Function.comp_def]

theorem cuts_array (text : Json → List Char) {before gap behind : List Char}
    (hbefore : IsGap before) (hgap : IsGap gap) (hbehind : IsGap behind) {xs : List Json}
    (h : ∀ x ∈ xs, Cuts (text x) (spelling x)) :
    Cuts ('[' :: (before ++ (',' :: gap).intercalate (xs.map text) ++ behind ++ [']']))
      (spelling (.array xs)) := by
  rw [spelling, itemSpellings_eq]
  exact cuts_between (fun _ => by rw [tokens]) (fun _ => by rw [tokens]) (by decide) hbefore hbehind
    (cuts_separated hgap h)

theorem cuts_object (text : Json → List Char) {before gap behind space : List Char}
    (hbefore : IsGap before) (hgap : IsGap gap) (hbehind : IsGap behind) (hspace : IsGap space)
    {ms : List (String × Json)} (h : ∀ m ∈ ms, Cuts (text m.2) (spelling m.2)) :
    Cuts ('\x7b' :: (before ++ (',' :: gap).intercalate (ms.map fun m =>
      (quoted m.1).toList ++ ':' :: (space ++ text m.2)) ++ behind ++ ['\x7d']))
      (spelling (.object ms)) := by
  have hmember : ∀ m ∈ ms, Cuts ((quoted m.1).toList ++ ':' :: (space ++ text m.2))
      (memberSpelling m) := by
    intro m hm rest hrest
    rw [List.append_assoc, List.cons_append, List.append_assoc, tokens_quoted, tokens,
      tokens_gap hspace, h m hm rest hrest]
    simp [memberSpelling, Function.comp_def]
  rw [spelling, memberSpellings_eq]
  exact cuts_between (fun _ => by rw [tokens]) (fun _ => by rw [tokens]) (by decide) hbefore hbehind
    (cuts_separated hgap hmember)

theorem compactItems_eq (xs : List Json) : compactItems xs = xs.map compact := by
  induction xs with
  | nil => rfl
  | cons x xs ih => rw [compactItems, ih, List.map_cons]

theorem compactMembers_eq (ms : List (String × Json)) :
    compactMembers ms = ms.map fun m => quoted m.1 ++ ":" ++ compact m.2 := by
  induction ms with
  | nil => rfl
  | cons m ms ih => rw [compactMembers, ih, List.map_cons]

/-- **The text of a document on one line** is cut into its tokens. -/
theorem cuts_compact {n : Nat} {j : Json} (h : Fits n j) : Cuts j.compact.toList (spelling j) := by
  induction h with
  | null => exact cuts_word (by decide) rfl
  | bool b => cases b <;> exact cuts_word (by decide) rfl
  | whole hlow hhigh => exact cuts_whole hlow hhigh
  | text s => exact fun rest _ => tokens_quoted s rest
  | @array n xs _ ih =>
    have htext : (compact (.array xs)).toList = '[' :: ([] ++
        [','].intercalate (xs.map fun x => x.compact.toList) ++ [] ++ [']']) := by
      simp [compact, compactItems_eq, String.toList_intercalate, Function.comp_def]
    rw [htext]
    exact cuts_array (fun x => x.compact.toList) isGap_nil isGap_nil isGap_nil ih
  | @object n ms _ ih =>
    have htext : (compact (.object ms)).toList = '\x7b' :: ([] ++ [','].intercalate (ms.map fun m =>
        (quoted m.1).toList ++ ':' :: ([] ++ m.2.compact.toList)) ++ [] ++ ['\x7d']) := by
      simp [compact, compactMembers_eq, String.toList_intercalate, Function.comp_def]
    rw [htext]
    exact cuts_object (fun x => x.compact.toList) isGap_nil isGap_nil isGap_nil isGap_nil ih

theorem prettyItems_eq (level : Nat) (xs : List Json) :
    prettyItems level xs = xs.map (prettyAt level) := by
  induction xs with
  | nil => rfl
  | cons x xs ih => rw [prettyItems, ih, List.map_cons]

theorem prettyMembers_eq (level : Nat) (ms : List (String × Json)) :
    prettyMembers level ms = ms.map fun m => quoted m.1 ++ ": " ++ prettyAt level m.2 := by
  induction ms with
  | nil => rfl
  | cons m ms ih => rw [prettyMembers, ih, List.map_cons]

theorem isGap_lineBreak (level : Nat) : IsGap (lineBreak level).toList := by
  intro c hc
  rw [lineBreak, String.toList_ofList, List.mem_cons, List.mem_replicate] at hc
  exact hc.elim .inr fun h => .inl h.2

/-- Between brackets stand lines with commas and gaps between them. -/
theorem exists_gaps (opening closing : String) (level : Nat) (lines : List String) :
    ∃ before gap behind, IsGap before ∧ IsGap gap ∧ IsGap behind ∧
      (block opening closing level lines).toList = opening.toList ++
        (before ++ (',' :: gap).intercalate (lines.map String.toList) ++ behind ++
          closing.toList) := by
  cases lines with
  | nil =>
    refine ⟨[], [], [], isGap_nil, isGap_nil, isGap_nil, ?_⟩
    simp [block]
  | cons line lines =>
    refine ⟨_, _, _, isGap_lineBreak (level + 1), isGap_lineBreak (level + 1),
      isGap_lineBreak level, ?_⟩
    simp [block, String.toList_intercalate]

/-- **The text of a document over several lines** is cut into its tokens. -/
theorem cuts_prettyAt {n : Nat} {j : Json} (h : Fits n j) (level : Nat) :
    Cuts (prettyAt level j).toList (spelling j) := by
  induction h generalizing level with
  | @null n => exact cuts_compact (@Fits.null n)
  | @bool n b => exact cuts_compact (@Fits.bool n b)
  | @whole n i hlow hhigh => exact cuts_compact (@Fits.whole n i hlow hhigh)
  | @text n s => exact cuts_compact (@Fits.text n s)
  | @array n xs _ ih =>
    obtain ⟨before, gap, behind, hbefore, hgap, hbehind, htext⟩ :=
      exists_gaps "[" "]" level (prettyItems (level + 1) xs)
    rw [prettyItems_eq, List.map_map] at htext
    rw [prettyAt, prettyItems_eq, htext]
    exact cuts_array (fun x => (prettyAt (level + 1) x).toList) hbefore hgap hbehind
      fun x hx => ih x hx (level + 1)
  | @object n ms _ ih =>
    obtain ⟨before, gap, behind, hbefore, hgap, hbehind, htext⟩ :=
      exists_gaps "\x7b" "\x7d" level (prettyMembers (level + 1) ms)
    have hspace : IsGap [' '] := fun c hc => .inl (List.mem_singleton.mp hc)
    have hlines : (ms.map fun m => quoted m.1 ++ ": " ++ prettyAt (level + 1) m.2).map
        String.toList = ms.map fun m =>
          (quoted m.1).toList ++ ':' :: ([' '] ++ (prettyAt (level + 1) m.2).toList) := by
      simp
    rw [prettyMembers_eq, hlines] at htext
    rw [prettyAt, prettyMembers_eq, htext]
    exact cuts_object (fun x => (prettyAt (level + 1) x).toList) hbefore hgap hbehind hspace
      fun m hm => ih m hm (level + 1)

/-! ## Documents -/

/-- What is cut into the tokens of a document is read as it. -/
theorem parse?_of_cuts {j : Json} (h : Fits 127 j) {s : String} (hs : Cuts s.toList (spelling j)) :
    parse? s = some j := by
  have htokens := hs [] fun _ hc => by cases hc
  rw [List.append_nil, tokens, Option.map_some, List.append_nil] at htokens
  rw [parse?, htokens, Option.bind_some, ofTokens?_spelling h]

/-- **A document is read back** from its text on one line. -/
theorem parse?_compact {j : Json} (h : Fits 127 j) : parse? j.compact = some j :=
  parse?_of_cuts h (cuts_compact h)

/-- **A document is read back** from its text over several lines. -/
theorem parse?_pretty {j : Json} (h : Fits 127 j) : parse? j.pretty = some j :=
  parse?_of_cuts h (cuts_prettyAt h 0)

/-- What is read from a document is read from its texts. -/
theorem parse?_texts {α : Type} {j : Json} (h : Fits 127 j) {read : Json → Option α} {a : α}
    (hread : read j = some a) : ∀ text ∈ [j.compact, j.pretty],
      (parse? text).bind read = some a := by
  intro text htext
  have hparse : parse? text = some j := by
    rcases List.mem_cons.mp htext with rfl | htext
    · exact parse?_compact h
    · obtain rfl := List.mem_singleton.mp htext
      exact parse?_pretty h
  rw [hparse, Option.bind_some, hread]

end PixQuery.Json
