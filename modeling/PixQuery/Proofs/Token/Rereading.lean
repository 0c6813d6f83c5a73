import Mathlib.Data.List.TakeWhile
import PixQuery.Proofs.Token.Writing

/-!
# Written strings are read back under any options

A quoted text is read back however a text is cut into tokens: neither an escape nor a quote depends
on the options. A bare word does. An underscore in it may stand for a space, full-width punctuation
may be read as ASCII, and a curly quote may open a text. A name that is written as a bare word is
read back when none of this happens to it, and then only.

Results:
* `lex_quoted`: a quoted text is one string.
* `Lexer.isReadBack_word_iff`: which bare words are read as they stand.
* `quotedIfNeeded_isReadBack_iff`: which names are read back that are quoted where they need it.
-/

namespace PixQuery

open Alphabet

namespace Lexer

/-- A text that is one piece. -/
theorem pieces_whole {o : LexicalOptions} {c : Char} {cs : List Char} {content : Content}
    (h : piece o 0 c cs = ⟨content, cs.length⟩) :
    pieces o 0 (c :: cs) = [⟨0, content, c :: cs⟩] := by
  have hpiece : piece o 0 c (cs ++ []) = ⟨content, cs.length⟩ := by rw [List.append_nil, h]
  have hpieces := pieces_cons cs hpiece
  rw [List.append_nil] at hpieces
  rw [hpieces, pieces]

end Lexer

/-- A text that is one string. -/
theorem lex_whole {o : LexicalOptions} {text : String} {c : Char} {cs : List Char} {value : String}
    {kind : StringKind} (htext : text.toList = c :: cs)
    (h : Lexer.piece o 0 c cs = ⟨.token (.string value kind) [] none, cs.length⟩) :
    lex o text = ⟨some [⟨.string value kind, .between 0 text.length⟩], [], []⟩ := by
  rw [lex, htext, Lexer.pieces_whole h, ← String.length_toList, htext]
  simp only [Lexer.report, Lexer.Placed.token?, Lexer.Placed.warnings, Lexer.Placed.error?,
    Lexer.Placed.range, List.filterMap_cons, List.filterMap_nil, List.flatMap_cons,
    List.flatMap_nil, List.append_nil, Nat.zero_add]

/-! ## Quoted texts -/

/-- **A quoted text is one string**, of the kind of its quotes and with its value, under any
options, and nothing is wrong with it. -/
theorem lex_quoted {kind : StringKind} {quote : Char} (hquote : kind.quote? = some quote)
    (o : LexicalOptions) (text : String) : lex o (quoted quote text) =
      ⟨some [⟨.string text kind, .between 0 (quoted quote text).length⟩], [], []⟩ := by
  have hchars : (quoted quote text).toList =
      quote :: (text.toList.flatMap (quotedChar quote) ++ [quote]) := by
    rw [quoted, String.toList_ofList]
    rfl
  refine lex_whole hchars ?_
  rw [Lexer.piece_quoted hquote, String.ofList_toList, List.length_append, List.length_singleton]

theorem lex_quoted_mixed : StringKind.quote? .apostrophe = some '\x27' ∧
    lex ⟨true, true⟩ "\x27it\\\x27s “a_b”：\\\\\x27" =
      ⟨some [⟨.string "it\x27s “a_b”：\\" .apostrophe, .between 0 16⟩], [], []⟩ :=
  ⟨rfl, lex_quoted rfl ⟨true, true⟩ "it\x27s “a_b”：\\"⟩

/-! ## What the options do to a character -/

namespace Alphabet

variable {o : LexicalOptions} {c : Char}

/-- A character of the table of full-width punctuation. -/
def IsFullWidth (c : Char) : Prop := c ∈ fullWidth.map Prod.fst

instance : DecidablePred IsFullWidth := fun c =>
  inferInstanceAs (Decidable (c ∈ fullWidth.map Prod.fst))

theorem exists_of_isFullWidth (h : IsFullWidth c) :
    ∃ a, find? fullWidth c = some a ∧ (c, a) ∈ fullWidth := by
  obtain ⟨e, he, rfl⟩ := List.mem_map.mp h
  cases hfind : fullWidth.find? fun e' => e'.1 == e.1 with
  | none => exact absurd (beq_self_eq_true e.1) (List.find?_eq_none.mp hfind e he)
  | some e' =>
    have hkey : e'.1 = e.1 := by simpa using List.find?_some hfind
    refine ⟨e'.2, by rw [find?, hfind]; rfl, ?_⟩
    rw [← hkey]
    exact List.mem_of_find?_eq_some hfind

theorem find?_of_not_isFullWidth (h : ¬ IsFullWidth c) : find? fullWidth c = none := by
  rw [find?, Option.map_eq_none_iff, List.find?_eq_none]
  intro e he hkey
  exact h (List.mem_map.mpr ⟨e, he, beq_iff_eq.mp hkey⟩)

/-- Full-width punctuation is not ASCII, and is read as punctuation. -/
theorem of_mem_fullWidth {a : Char} (h : (c, a) ∈ fullWidth) :
    ¬ c.toNat < 128 ∧ (Symbol.ofChar? a).isSome = true ∧
      (significant.contains a && !wordMiddle.contains a) = !(c == '＋' || c == '－') := by
  have hall : ∀ e ∈ fullWidth, ¬ e.1.toNat < 128 ∧ (Symbol.ofChar? e.2).isSome = true ∧
      (significant.contains e.2 && !wordMiddle.contains e.2) = !(e.1 == '＋' || e.1 == '－') := by
    decide
  exact hall (c, a) h

/-- Full-width punctuation is read as ASCII when it is reflected. -/
theorem reflect?_of_isFullWidth (ho : o.reflectFullWidth = true) (h : IsFullWidth c) :
    ∃ a, reflect? o c = some a ∧ (c, a) ∈ fullWidth := by
  obtain ⟨a, hfind, hmem⟩ := exists_of_isFullWidth h
  refine ⟨a, ?_, hmem⟩
  rw [reflect?, if_neg (of_mem_fullWidth hmem).1, if_pos ho, hfind]

/-- Any other character is read as itself, or stands for nothing in the table. -/
theorem reflect?_of_plain (h : o.reflectFullWidth = true → ¬ IsFullWidth c) :
    reflect? o c = some c ∨ reflect? o c = none := by
  unfold reflect?
  split
  · exact .inl rfl
  split
  · rename_i ho
    exact .inr (find?_of_not_isFullWidth (h ho))
  · exact .inl rfl

theorem symbol?_eq_none_iff (h : Symbol.ofChar? c = none) :
    symbol? o c = none ↔ (o.reflectFullWidth = true → ¬ IsFullWidth c) := by
  constructor
  · intro hsymbol ho hfull
    obtain ⟨a, hreflect, hmem⟩ := reflect?_of_isFullWidth ho hfull
    have hsome := (of_mem_fullWidth hmem).2.1
    rw [symbol?, hreflect, Option.bind_some] at hsymbol
    rw [hsymbol] at hsome
    cases hsome
  · intro hplain
    rw [symbol?]
    rcases reflect?_of_plain hplain with hreflect | hreflect
    · rw [hreflect, Option.bind_some, h]
    · rw [hreflect]
      rfl

theorem endsWord_eq_false_iff (h : endsWord default c = false) : endsWord o c = false ↔
    (o.reflectFullWidth = true → IsFullWidth c → c = '＋' ∨ c = '－') := by
  rw [Lexer.endsWord_default, Bool.or_eq_false_iff] at h
  obtain ⟨hspace, hsignificant⟩ := h
  by_cases hfull : o.reflectFullWidth = true ∧ IsFullWidth c
  · obtain ⟨ho, hc⟩ := hfull
    obtain ⟨a, hreflect, hmem⟩ := reflect?_of_isFullWidth ho hc
    rw [endsWord, hreflect, hspace, Option.getD_some, (of_mem_fullWidth hmem).2.2, Bool.false_or,
      Bool.not_eq_false', Bool.or_eq_true, beq_iff_eq, beq_iff_eq]
    exact ⟨fun hsign _ _ => hsign, fun hsign => hsign ho hc⟩
  · have hplain : o.reflectFullWidth = true → ¬ IsFullWidth c := fun ho hc => hfull ⟨ho, hc⟩
    have hself : (reflect? o c).getD c = c := by
      rcases reflect?_of_plain hplain with hreflect | hreflect <;> rw [hreflect] <;> rfl
    rw [endsWord, hself, hspace, hsignificant]
    exact ⟨fun _ ho hc => absurd hc (hplain ho), fun _ => rfl⟩

end Alphabet

/-! ## Bare words -/

/-- A bare word is read as it stands: no underscore in it stands for a space, and nothing in it is
reflected to punctuation that ends it, or opens a text in front of it. -/
structure IsVerbatim (o : LexicalOptions) (cs : List Char) : Prop where
  underscore : o.underscoreAsSpace = true → '_' ∉ cs
  first : o.reflectFullWidth = true → ∀ c ∈ cs.head?, ¬ IsFullWidth c ∧ c ≠ '“' ∧ c ≠ '‘'
  later : o.reflectFullWidth = true → ∀ c ∈ cs.tail, IsFullWidth c → c = '＋' ∨ c = '－'

/-- A text is read as one string with a value, without an error. -/
def IsReadBack (o : LexicalOptions) (value text : String) : Prop :=
  (lex o text).errors = [] ∧
    ∃ kind range, (lex o text).result = some [⟨.string value kind, range⟩]

namespace Lexer

variable {o : LexicalOptions} {c : Char} {cs : List Char}

/-- A word means itself when no underscore in it stands for a space. -/
theorem wordValue_eq_iff :
    wordValue o cs = String.ofList cs ↔ (o.underscoreAsSpace = true → '_' ∉ cs) := by
  rw [wordValue, String.ofList_inj]
  by_cases ho : o.underscoreAsSpace = true
  · rw [if_pos ho]
    constructor
    · intro hmap _ hmem
      have hself : cs.map (fun c => if c = '_' then ' ' else c) = cs.map id := by
        rw [hmap, List.map_id]
      exact absurd (List.map_inj_left.mp hself '_' hmem) (by decide)
    · intro hnone
      have hself : ∀ c ∈ cs, (if c = '_' then ' ' else c) = c := by
        intro c hc
        rw [if_neg]
        rintro rfl
        exact hnone ho hc
      rw [List.map_congr_left hself, List.map_id']
  · rw [if_neg ho]
    exact ⟨fun _ h => absurd h ho, fun _ => rfl⟩

theorem length_wordValue (o : LexicalOptions) (cs : List Char) :
    (wordValue o cs).toList.length = cs.length := by
  rw [wordValue, String.toList_ofList]
  split
  · rw [List.length_map]
  · rfl

theorem length_quotedText (close : Char) (pos : Nat) (cs : List Char) :
    (quotedText close pos cs).value.length ≤ cs.length := by
  fun_induction quotedText close pos cs with
  | case1 => exact Nat.le_refl 0
  | case2 => exact Nat.zero_le _
  | case3 => exact Nat.zero_le _
  | case4 pos e rest q v hfind hclose ih => exact Nat.le_succ_of_le (Nat.succ_le_succ ih)
  | case5 pos e rest q hfind q' hclose ih => exact Nat.le_succ_of_le (Nat.succ_le_succ ih)
  | case6 pos c cs hclose hslash ih => exact Nat.succ_le_succ ih

/-- The first token of a text is what stands at its front. -/
theorem lexeme_of_isReadBack {value text : String} (htext : text.toList = c :: cs)
    (h : IsReadBack o value text) {lexeme : Lexeme} {warnings : List LexicalFault}
    {error : Option LexicalFault}
    (hpiece : (piece o 0 c cs).content = .token lexeme warnings error) :
    ∃ kind, lexeme = .string value kind := by
  obtain ⟨_, kind, range, hresult⟩ := h
  rw [lex, htext, pieces] at hresult
  have htokens := Option.some.inj hresult
  rw [List.filterMap_cons, Placed.token?] at htokens
  simp only [hpiece] at htokens
  obtain ⟨htoken, _⟩ := List.cons.inj htokens
  exact ⟨kind, congrArg Token.lexeme htoken⟩

theorem symbol?_of_isReadBack {value text : String} (htext : text.toList = c :: cs)
    (hspace : spaces.contains c = false) (h : IsReadBack o value text) : symbol? o c = none := by
  cases hs : symbol? o c with
  | none => rfl
  | some s =>
    have hpiece : ∃ s, (piece o 0 c cs).content = .token (.symbol s) [] none := by
      simp only [piece, hspace, hs, Bool.false_eq_true, if_false]
      split
      · exact ⟨_, rfl⟩
      · exact ⟨_, rfl⟩
    obtain ⟨s, hpiece⟩ := hpiece
    obtain ⟨kind, hlexeme⟩ := lexeme_of_isReadBack htext h hpiece
    cases hlexeme

/-- A text is longer than what a quoted text means that it begins with. -/
theorem quote?_of_isReadBack {text : String} (htext : text.toList = c :: cs)
    (hspace : spaces.contains c = false) (h : IsReadBack o text text) :
    Alphabet.quote? o c = none := by
  have hsymbol := symbol?_of_isReadBack htext hspace h
  cases hq : Alphabet.quote? o c with
  | none => rfl
  | some q =>
    obtain ⟨kind, close⟩ := q
    have hpiece : ∃ warnings error, (piece o 0 c cs).content =
        .token (.string (String.ofList (quotedText close 1 cs).value) kind) warnings error := by
      simp only [piece, hspace, hsymbol, hq, Bool.false_eq_true, if_false]
      exact ⟨_, _, rfl⟩
    obtain ⟨warnings, error, hpiece⟩ := hpiece
    obtain ⟨_, hlexeme⟩ := lexeme_of_isReadBack htext h hpiece
    have hvalue : (quotedText close 1 cs).value = c :: cs := by
      rw [← htext, ← (Lexeme.string.inj hlexeme).1, String.toList_ofList]
    have hlength := length_quotedText close 1 cs
    rw [hvalue, List.length_cons] at hlength
    omega

/-- A text that is read back as what it is and begins a word is one word. -/
theorem word_of_isReadBack {text : String} (htext : text.toList = c :: cs)
    (hspace : spaces.contains c = false) (hstart : forbiddenStart.contains c = false)
    (h : IsReadBack o text text) :
    wordTail o cs = cs ∧ wordValue o (c :: cs) = String.ofList (c :: cs) := by
  have hsymbol := symbol?_of_isReadBack htext hspace h
  have hquote := quote?_of_isReadBack htext hspace h
  have hpiece : (piece o 0 c cs).content =
      .token (.string (wordValue o (c :: wordTail o cs)) .word) [] none := by
    simp only [piece, hspace, hsymbol, hquote, hstart, Bool.false_eq_true, if_false]
  obtain ⟨_, hlexeme⟩ := lexeme_of_isReadBack htext h hpiece
  have hvalue : wordValue o (c :: wordTail o cs) = String.ofList (c :: cs) := by
    rw [(Lexeme.string.inj hlexeme).1, ← htext, String.ofList_toList]
  have htail : wordTail o cs = cs := by
    have hlength := congrArg (fun s => s.toList.length) hvalue
    simp only [length_wordValue, String.toList_ofList, List.length_cons, Nat.succ_inj] at hlength
    exact (List.takeWhile_prefix _).eq_of_length hlength
  rw [htail] at hvalue
  exact ⟨htail, hvalue⟩

/-- **A bare word** is read back exactly when it is read as it stands. -/
theorem isReadBack_word_iff {name : String} (h : isBareWord name.toList = true) :
    IsReadBack o name name ↔ IsVerbatim o name.toList := by
  obtain ⟨c, cs, hname⟩ : ∃ c cs, name.toList = c :: cs := by
    cases hname : name.toList with
    | nil => rw [hname] at h; cases h
    | cons c cs => exact ⟨c, cs, rfl⟩
  rw [hname] at h
  obtain ⟨hstart, hsymbol, hall⟩ := of_isBareWord h
  obtain ⟨hc, hcs⟩ := List.forall_mem_cons.mp hall
  have hspace : spaces.contains c = false := by
    rw [endsWord_default, Bool.or_eq_false_iff] at hc
    exact hc.1
  rw [hname]
  constructor
  · intro hback
    have hsymbol' := symbol?_of_isReadBack hname hspace hback
    have hquote := quote?_of_isReadBack hname hspace hback
    obtain ⟨htail, hvalue⟩ := word_of_isReadBack hname hspace hstart hback
    have hends := List.takeWhile_eq_self_iff.mp htail
    constructor
    case underscore => exact wordValue_eq_iff.mp hvalue
    case first =>
      intro ho d hd
      obtain rfl := Option.some.inj hd
      exact ⟨(symbol?_eq_none_iff hsymbol).mp hsymbol' ho, (quote?_eq_none_iff hc).mp hquote ho⟩
    case later =>
      intro ho d hd
      refine (endsWord_eq_false_iff (hcs d hd)).mp ?_ ho
      simpa using hends d hd
  · intro hverbatim
    have hsymbol' : symbol? o c = none :=
      (symbol?_eq_none_iff hsymbol).mpr fun ho => (hverbatim.first ho c rfl).1
    have hquote : Alphabet.quote? o c = none :=
      (quote?_eq_none_iff hc).mpr fun ho => (hverbatim.first ho c rfl).2
    have hends : ∀ d ∈ cs, endsWord o d = false := fun d hd =>
      (endsWord_eq_false_iff (hcs d hd)).mpr fun ho => hverbatim.later ho d hd
    have hclose : Closes o [] := fun _ h => by cases h
    have hpiece := piece_word hspace hsymbol' hquote hstart hends hclose 0
    rw [List.append_nil, wordValue_eq_iff.mpr hverbatim.underscore, ← hname, String.ofList_toList]
      at hpiece
    have hlex := lex_whole hname hpiece
    exact ⟨by rw [hlex], .word, _, by rw [hlex]⟩

end Lexer

/-! ## Names -/

/-- **A name that is quoted where it needs it** is read back under some options exactly when it is
quoted, or nothing in it means anything else under these options. -/
theorem quotedIfNeeded_isReadBack_iff {kind : StringKind} {quote : Char}
    (hquote : kind.quote? = some quote) (o : LexicalOptions) (name : String) :
    IsReadBack o name (quotedIfNeeded quote name) ↔
      (isBareWord name.toList = true → IsVerbatim o name.toList) := by
  rw [quotedIfNeeded]
  by_cases hbare : isBareWord name.toList = true
  · rw [if_pos hbare, Lexer.isReadBack_word_iff hbare]
    exact ⟨fun h _ => h, fun h => h hbare⟩
  · rw [if_neg hbare]
    have hlex := lex_quoted hquote o name
    exact ⟨fun _ h => absurd h hbare, fun _ => ⟨by rw [hlex], kind, _, by rw [hlex]⟩⟩

theorem quotedIfNeeded_isReadBack_plus : StringKind.quote? .backticks = some '\x60' ∧
    isBareWord "猫＋1".toList = true ∧
    IsReadBack ⟨true, true⟩ "猫＋1" (quotedIfNeeded '\x60' "猫＋1") := by
  have hquote : StringKind.quote? .backticks = some '\x60' := rfl
  refine ⟨hquote, by decide,
    (quotedIfNeeded_isReadBack_iff hquote ⟨true, true⟩ "猫＋1").mpr fun _ => ?_⟩
  constructor
  case underscore => exact fun _ => by decide
  case first =>
    intro _ c hc
    obtain rfl : '猫' = c := Option.some.inj hc
    decide
  case later =>
    intro _ c hc hfull
    rcases List.mem_cons.mp (show c ∈ ['＋', '1'] from hc) with rfl | hc
    · exact .inl rfl
    · obtain rfl := List.mem_singleton.mp hc
      exact absurd hfull (by decide)

/-- Under options that read underscores as spaces, or reflect full-width punctuation, some names are
written as bare words that are read as something else. -/
theorem not_isReadBack_blueSky :
    ¬ IsReadBack ⟨false, true⟩ "blue_sky" (quotedIfNeeded '\x60' "blue_sky") ∧
      ¬ IsReadBack ⟨true, false⟩ "a：b" (quotedIfNeeded '\x60' "a：b") := by
  have hblue : isBareWord "blue_sky".toList = true := by decide
  have hcolon : isBareWord "a：b".toList = true := by decide
  rw [quotedIfNeeded, quotedIfNeeded, if_pos hblue, if_pos hcolon, Lexer.isReadBack_word_iff hblue,
    Lexer.isReadBack_word_iff hcolon]
  constructor
  · intro h
    exact absurd (h.underscore rfl) (by decide)
  · intro h
    exact absurd (h.later rfl '：' (by decide) (by decide)) (by decide)

end PixQuery
