import PixQuery.Proofs.Token.Rereading

/-!
# The ASCII forms of full-width punctuation

`asciiForm` is the ASCII form of a full-width mark or a curly quote, and any other character itself.
Where full-width punctuation is reflected, a character and its ASCII form begin the same symbols and
extend them, end the same words and stop the same runs. Curly quotes are apart: they end no word,
and of them only those that open a text stop a run.

Results:
* `asciiForm_cases`: which characters have an ASCII form of their own.
* `reflect?_cases`: what a character is reflected to.
* `symbol?_asciiForm`, `extend?_asciiForm`, `endsWord_asciiForm`, `isBoundary_asciiForm`: a
  character and its ASCII form, test by test.
* `IsPaired`: curly quotes that come in pairs.
-/

namespace PixQuery

namespace Alphabet

variable {c : Char} {u : Bool}

/-! ## ASCII forms -/

/-- The curly quotes and their ASCII forms. -/
def curly : List (Char × Char) :=
  [('“', '\x22'), ('”', '\x22'), ('‘', '\x27'), ('’', '\x27')]

/-- A curly quote. -/
def IsCurly (c : Char) : Prop := c ∈ curly.map Prod.fst

instance : DecidablePred IsCurly := fun c =>
  inferInstanceAs (Decidable (c ∈ curly.map Prod.fst))

/-- A full-width mark or a curly quote. -/
def IsReflected (c : Char) : Prop := IsFullWidth c ∨ IsCurly c

instance : DecidablePred IsReflected := fun c =>
  inferInstanceAs (Decidable (IsFullWidth c ∨ IsCurly c))

/-- Whether no character of a text is of some kind. -/
def Lacks (kind : Char → Prop) (cs : List Char) : Prop := ∀ c ∈ cs, ¬ kind c

instance (kind : Char → Prop) [DecidablePred kind] (cs : List Char) : Decidable (Lacks kind cs) :=
  List.decidableBAll (fun c => ¬ kind c) cs

/-- The ASCII form of a full-width mark or a curly quote; any other character is its own. -/
def asciiForm (c : Char) : Char := (find? (fullWidth ++ curly) c).getD c

/-- **Which characters have an ASCII form of their own**: those of the tables, and no others. -/
theorem asciiForm_cases (c : Char) :
    (c, asciiForm c) ∈ fullWidth ++ curly ∨ asciiForm c = c ∧ ¬ IsReflected c := by
  unfold asciiForm find?
  cases hfind : (fullWidth ++ curly).find? fun e => e.1 == c with
  | none =>
    refine .inr ⟨rfl, fun hc => ?_⟩
    have hmem : c ∈ (fullWidth ++ curly).map Prod.fst := by
      rw [List.map_append, List.mem_append]
      exact hc
    obtain ⟨e, he, rfl⟩ := List.mem_map.mp hmem
    exact List.find?_eq_none.mp hfind e he (beq_self_eq_true e.1)
  | some e =>
    have hkey : e.1 = c := by simpa using List.find?_some hfind
    exact .inl (hkey ▸ List.mem_of_find?_eq_some hfind)

theorem isReflected_of_mem {e : Char × Char} (h : e ∈ fullWidth ++ curly) : IsReflected e.1 :=
  (List.mem_append.mp h).imp (fun h => List.mem_map.mpr ⟨e, h, rfl⟩)
    fun h => List.mem_map.mpr ⟨e, h, rfl⟩

theorem asciiForm_of_plain (h : ¬ IsReflected c) : asciiForm c = c :=
  (asciiForm_cases c).elim (fun hc => absurd (isReflected_of_mem hc) h) And.left

/-- What holds of the entries of the tables and of any other character with itself holds of each
character and its ASCII form. -/
theorem asciiForm_induction {P : Char → Char → Prop} (htable : ∀ e ∈ fullWidth ++ curly, P e.1 e.2)
    (hself : ∀ c, ¬ IsReflected c → P c c) (c : Char) : P c (asciiForm c) := by
  rcases asciiForm_cases c with hc | ⟨hc, hplain⟩
  · exact htable _ hc
  · rw [hc]
    exact hself c hplain

theorem not_isReflected_asciiForm (c : Char) : ¬ IsReflected (asciiForm c) :=
  asciiForm_induction (P := fun _ a => ¬ IsReflected a) (by decide) (fun _ h => h) c

theorem spaces_asciiForm (c : Char) : spaces.contains (asciiForm c) = spaces.contains c :=
  asciiForm_induction (P := fun c a => spaces.contains a = spaces.contains c) (by decide)
    (fun _ _ => rfl) c

theorem forbiddenStart_asciiForm (c : Char) :
    forbiddenStart.contains (asciiForm c) = forbiddenStart.contains c :=
  asciiForm_induction (P := fun c a => forbiddenStart.contains a = forbiddenStart.contains c)
    (by decide) (fun _ _ => rfl) c

/-! ## Symbols, words and runs -/

theorem not_isReflected_of_ascii (h : c.toNat < 128) : ¬ IsReflected c := by
  have hall : ∀ e ∈ fullWidth ++ curly, ¬ e.1.toNat < 128 := by decide
  rintro (hc | hc)
  · obtain ⟨e, he, rfl⟩ := List.mem_map.mp hc
    exact hall e (List.mem_append_left _ he) h
  · obtain ⟨e, he, rfl⟩ := List.mem_map.mp hc
    exact hall e (List.mem_append_right _ he) h

theorem reflect?_off (u : Bool) (c : Char) : reflect? ⟨false, u⟩ c = some c := by
  unfold reflect?
  split
  · rfl
  · rfl

/-- A character is reflected to its ASCII form, or to nothing where it is a curly quote or beyond
ASCII and not in the tables. -/
theorem reflect?_cases (u : Bool) (c : Char) : reflect? ⟨true, u⟩ c = some (asciiForm c) ∨
    reflect? ⟨true, u⟩ c = none ∧ (IsCurly c ∨ ¬ IsReflected c ∧ ¬ c.toNat < 128) := by
  unfold reflect?
  split
  · rename_i hascii
    rw [asciiForm_of_plain (not_isReflected_of_ascii hascii)]
    exact .inl rfl
  · rename_i hascii
    rw [if_pos rfl]
    by_cases hfull : IsFullWidth c
    · obtain ⟨a, hfind, _⟩ := exists_of_isFullWidth hfull
      have hform : asciiForm c = a := by
        unfold find? at hfind
        obtain ⟨e, he, rfl⟩ := Option.map_eq_some_iff.mp hfind
        rw [asciiForm, find?, List.find?_append, he]
        rfl
      exact .inl (by rw [hfind, hform])
    · refine .inr ⟨find?_of_not_isFullWidth hfull, ?_⟩
      by_cases hcurly : IsCurly c
      · exact .inl hcurly
      · exact .inr ⟨fun h => h.elim hfull hcurly, hascii⟩

/-- A curly quote is no symbol and extends none. -/
theorem reflect?_of_isCurly (h : IsCurly c) : reflect? ⟨true, u⟩ c = none := by
  have hall : ∀ u, ∀ e ∈ curly, reflect? ⟨true, u⟩ e.1 = none := by decide
  obtain ⟨e, he, rfl⟩ := List.mem_map.mp h
  exact hall u e he

/-- What only ASCII characters are, and no quotes, a character is when its ASCII form is. -/
theorem reflect?_bind {β : Type} {f : Char → Option β} (hascii : ∀ d, ¬ d.toNat < 128 → f d = none)
    (hquotes : ∀ e ∈ curly, f e.2 = none) (u : Bool) (c : Char) :
    (reflect? ⟨true, u⟩ c).bind f = (reflect? ⟨false, u⟩ (asciiForm c)).bind f := by
  rw [reflect?_off, Option.bind_some]
  rcases reflect?_cases u c with hc | ⟨hc, hnone⟩
  · rw [hc, Option.bind_some]
  · rw [hc, Option.bind_none]
    rcases hnone with hcurly | ⟨hplain, hbeyond⟩
    · have hform : ∀ e ∈ curly, asciiForm e.1 = e.2 := by decide
      obtain ⟨e, he, rfl⟩ := List.mem_map.mp hcurly
      rw [hform e he, hquotes e he]
    · rw [asciiForm_of_plain hplain, hascii c hbeyond]

theorem symbol?_asciiForm (u : Bool) (c : Char) :
    symbol? ⟨true, u⟩ c = symbol? ⟨false, u⟩ (asciiForm c) := by
  refine reflect?_bind (fun d hd => ?_) (by decide) u c
  unfold Symbol.ofChar?
  split <;> first | rfl | exact absurd (by decide) hd

theorem extend?_asciiForm (s : Symbol) (u : Bool) (c : Char) :
    (reflect? ⟨true, u⟩ c).bind s.extend? = (reflect? ⟨false, u⟩ (asciiForm c)).bind s.extend? := by
  refine reflect?_bind (fun d hd => ?_) (by cases s <;> decide) u c
  unfold Symbol.extend?
  split <;> first | rfl | exact absurd (by decide) hd

theorem endsWord_asciiForm (h : ¬ IsCurly c) :
    endsWord ⟨true, u⟩ c = endsWord ⟨false, u⟩ (asciiForm c) := by
  have hself : (reflect? ⟨true, u⟩ c).getD c = asciiForm c := by
    rcases reflect?_cases u c with hc | ⟨hc, hcurly | ⟨hplain, _⟩⟩
    · rw [hc]
      rfl
    · exact absurd hcurly h
    · rw [hc, asciiForm_of_plain hplain]
      rfl
  rw [endsWord, endsWord, hself, reflect?_off, Option.getD_some, spaces_asciiForm]

/-- A curly quote ends no word. -/
theorem endsWord_of_isCurly (h : IsCurly c) : endsWord ⟨true, u⟩ c = false := by
  have hall : ∀ u, ∀ e ∈ curly, endsWord ⟨true, u⟩ e.1 = false := by decide
  obtain ⟨e, he, rfl⟩ := List.mem_map.mp h
  exact hall u e he

/-- The characters that are left out of the texts in view: the ASCII quotes and the backslash. -/
def IsQuoting (c : Char) : Prop := c ∈ ['\x22', '\x27', '\x60', '\\']

instance : DecidablePred IsQuoting := fun c =>
  inferInstanceAs (Decidable (c ∈ ['\x22', '\x27', '\x60', '\\']))

/-- A character that is no quote of any form opens nothing, nor does its ASCII form. -/
theorem quote?_asciiForm (hquoting : ¬ IsQuoting c) (hcurly : ¬ IsCurly c) :
    quote? ⟨true, u⟩ c = none ∧ quote? ⟨false, u⟩ (asciiForm c) = none := by
  have hform : ¬ IsQuoting (asciiForm c) :=
    asciiForm_induction (P := fun c a => ¬ IsQuoting c → ¬ IsCurly c → ¬ IsQuoting a) (by decide)
      (fun _ _ h _ => h) c hquoting hcurly
  have hne : ∀ {o : LexicalOptions} {d : Char}, ¬ IsQuoting d →
      (o.reflectFullWidth = true → d ≠ '“' ∧ d ≠ '‘') → quote? o d = none := by
    intro o d hd ho
    have hall : ∀ q ∈ ['\x22', '\x27', '\x60', '\\'], d ≠ q := fun q hq h => hd (h ▸ hq)
    rw [quote?, if_neg (hall _ (by decide)), if_neg (hall _ (by decide)),
      if_neg (hall _ (by decide)), if_neg fun h => (ho h.2).1 h.1, if_neg fun h => (ho h.2).2 h.1]
  refine ⟨hne hquoting fun _ => ⟨?_, ?_⟩, hne hform fun h => by cases h⟩
  · rintro rfl
    exact hcurly (by decide)
  · rintro rfl
    exact hcurly (by decide)

/-! ## Pairs of curly quotes -/

/-- The curly quotes that open a text, each with the one that closes it. -/
def curlyPairs : List (Char × Char) := [('“', '”'), ('‘', '’')]

/-- What the quotes of a pair are, and their ASCII forms. -/
theorem exists_kind_of_mem {e : Char × Char} (h : e ∈ curlyPairs) (u : Bool) : ∃ kind,
    quote? ⟨true, u⟩ e.1 = some (kind, e.2) ∧
      quote? ⟨false, u⟩ (asciiForm e.1) = some (kind, asciiForm e.2) ∧
        symbol? ⟨true, u⟩ e.1 = none ∧ spaces.contains e.1 = false ∧ IsCurly e.1 := by
  rcases List.mem_cons.mp h with rfl | h
  · exact ⟨.doubleQuotes, rfl, rfl, rfl, by decide, by decide⟩
  · obtain rfl := List.mem_singleton.mp h
    exact ⟨.apostrophe, rfl, rfl, rfl, by decide, by decide⟩

/-- The curly quotes of a text come in pairs, and no full-width mark stands between the quotes of a
pair. Pairs may stand in each other. -/
inductive IsPaired : List Char → Prop
  | nil : IsPaired []
  | plain {c : Char} {cs : List Char} (hc : ¬ IsCurly c) (rest : IsPaired cs) : IsPaired (c :: cs)
  | pair {opening closing : Char} {inside cs : List Char}
    (hpair : (opening, closing) ∈ curlyPairs) (hinside : IsPaired inside)
    (hmarks : Lacks IsFullWidth inside) (rest : IsPaired cs) :
    IsPaired (opening :: (inside ++ closing :: cs))

namespace IsPaired

variable {cs : List Char}

/-- A text begins with a character that is no curly quote, or with a pair of them. -/
theorem cases_cons (h : IsPaired (c :: cs)) : ¬ IsCurly c ∧ IsPaired cs ∨
    ∃ closing inside behind, (c, closing) ∈ curlyPairs ∧ cs = inside ++ closing :: behind ∧
      IsPaired inside ∧ Lacks IsFullWidth inside ∧ IsPaired behind := by
  generalize htext : c :: cs = text at h
  cases h with
  | nil => cases htext
  | plain hc rest =>
    cases htext
    exact .inl ⟨hc, rest⟩
  | pair hpair hinside hmarks rest =>
    cases htext
    exact .inr ⟨_, _, _, hpair, rfl, hinside, hmarks, rest⟩

theorem of_plain_cons (h : IsPaired (c :: cs)) (hc : ¬ IsCurly c) : IsPaired cs := by
  rcases h.cases_cons with ⟨_, hrest⟩ | ⟨closing, _, _, hpair, _⟩
  · exact hrest
  · obtain ⟨_, _, _, _, _, hcurly⟩ := exists_kind_of_mem hpair false
    exact absurd hcurly hc

theorem of_front {front : List Char} (hfront : Lacks IsCurly front) (h : IsPaired cs) :
    IsPaired (front ++ cs) := by
  induction front with
  | nil => exact h
  | cons d front ih =>
    obtain ⟨hd, hfront⟩ := List.forall_mem_cons.mp hfront
    exact .plain hd (ih hfront)

/-- What stands behind characters that are no curly quotes is paired too. -/
theorem drop (h : IsPaired cs) {n : Nat} (hfront : Lacks IsCurly (cs.take n)) :
    IsPaired (cs.drop n) := by
  induction n generalizing cs with
  | zero => exact h
  | succ n ih =>
    cases cs with
    | nil => exact h
    | cons c cs =>
      obtain ⟨hc, hcs⟩ := List.forall_mem_cons.mp hfront
      exact ih (h.of_plain_cons hc) hcs

/-- The first curly quote of a text opens a pair. -/
theorem exists_opening (h : IsPaired cs) (hcurly : ∃ d ∈ cs, IsCurly d) :
    ∃ front e behind, cs = front ++ e.1 :: behind ∧ e ∈ curlyPairs ∧ Lacks IsCurly front := by
  induction h with
  | nil => simp at hcurly
  | pair hpair => exact ⟨[], _, _, rfl, hpair, fun d hd => by cases hd⟩
  | @plain c cs hc _ ih =>
    obtain ⟨d, hd, hdcurly⟩ := hcurly
    have hmem := (List.mem_cons.mp hd).resolve_left fun heq => hc (heq ▸ hdcurly)
    obtain ⟨front, e, behind, rfl, he, hfront⟩ := ih ⟨d, hmem, hdcurly⟩
    exact ⟨c :: front, e, behind, rfl, he, List.forall_mem_cons.mpr ⟨hc, hfront⟩⟩

/-- Before anything that stops at opening quotes there is no curly quote. -/
theorem not_isCurly_of_mem_takeWhile (h : IsPaired cs) {p : Char → Bool}
    (hstop : ∀ e ∈ curlyPairs, p e.1 = false) : Lacks IsCurly (cs.takeWhile p) := by
  induction h with
  | nil => exact fun d hd => by cases hd
  | @plain c cs hc _ ih =>
    intro d hd
    rw [List.takeWhile_cons] at hd
    split at hd
    · exact (List.mem_cons.mp hd).elim (fun heq => heq ▸ hc) (ih d)
    · cases hd
  | @pair opening closing inside cs hpair =>
    intro d hd
    rw [List.takeWhile_cons_of_neg (by rw [hstop _ hpair]; decide)] at hd
    cases hd

end IsPaired

/-- What ends a run of characters without a token is the same in the ASCII form, quotes that close
a text apart. -/
theorem isBoundary_asciiForm (hquoting : ¬ IsQuoting c)
    (hcurly : IsCurly c → ∃ e ∈ curlyPairs, e.1 = c) :
    isBoundary ⟨true, u⟩ c = isBoundary ⟨false, u⟩ (asciiForm c) := by
  rw [isBoundary, isBoundary, spaces_asciiForm, symbol?_asciiForm]
  congr 1
  by_cases hc : IsCurly c
  · obtain ⟨e, he, rfl⟩ := hcurly hc
    obtain ⟨kind, hquote, hform, _⟩ := exists_kind_of_mem he u
    rw [hquote, hform]
    rfl
  · obtain ⟨hquote, hform⟩ := quote?_asciiForm (u := u) hquoting hc
    rw [hquote, hform]

/-- Of the curly quotes only those that open a text end such a run. -/
theorem exists_pair_of_isBoundary (h : IsCurly c) (hboundary : isBoundary ⟨true, u⟩ c = true) :
    ∃ e ∈ curlyPairs, e.1 = c := by
  have hall : ∀ u, ∀ e ∈ curly, isBoundary ⟨true, u⟩ e.1 = true →
      ∃ e' ∈ curlyPairs, e'.1 = e.1 := by decide
  obtain ⟨e, he, rfl⟩ := List.mem_map.mp h
  exact hall u e he hboundary

/-- Every full-width mark is a symbol, and so ends such a run. -/
theorem symbol?_ne_none_of_isFullWidth (h : IsFullWidth c) : symbol? ⟨true, u⟩ c ≠ none := by
  obtain ⟨a, hreflect, hmem⟩ := @reflect?_of_isFullWidth ⟨true, u⟩ c rfl h
  rw [symbol?, hreflect, Option.bind_some]
  exact Option.isSome_iff_ne_none.mp (of_mem_fullWidth hmem).2.1

theorem isBoundary_of_isFullWidth (h : IsFullWidth c) : isBoundary ⟨true, u⟩ c = true := by
  rw [isBoundary, Option.isSome_iff_ne_none.mpr (symbol?_ne_none_of_isFullWidth h), Bool.or_true,
    Bool.true_or]

end Alphabet

end PixQuery
