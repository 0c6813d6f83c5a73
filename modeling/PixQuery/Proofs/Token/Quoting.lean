import PixQuery.Token.Lexer
import PixQuery.Token.Quoted

/-!
# Quoted texts and bare words are read back

Behind an opening quote each character of a text is written as itself or as a backslash and a
letter, and no part of that is the closing quote; so reading goes on to the quote that was written
last and finds the text. A bare word is read to its end when what stands behind it ends a word.

Results:
* `Lexer.quotedText_quoted`: the characters of a quoted text are read back, whatever follows.
* `Lexer.piece_quoted`: a quoted text is one string of the kind of its quotes.
* `Lexer.piece_bareWord`: a bare word is one string.
-/

namespace PixQuery

open Alphabet

/-! ## Escapes -/

/-- A letter behind a backslash is read as the character that it was written for. -/
theorem find?_of_escapeLetter? {quote c letter : Char} (h : escapeLetter? quote c = some letter) :
    find? escapes letter = some c := by
  unfold escapeLetter? at h
  split at h
  · obtain ⟨e, he, rfl⟩ := Option.map_eq_some_iff.mp h
    have hc : e.2 = c := by simpa using List.find?_some he
    subst hc
    have hall : ∀ e ∈ escapes, find? escapes e.1 = some e.2 := by decide
    exact hall e (List.mem_of_find?_eq_some he)
  · simp at h

/-- A character that is written as itself neither closes the text nor escapes another. -/
theorem ne_of_escapeLetter?_eq_none {kind : StringKind} {quote c : Char}
    (hquote : kind.quote? = some quote) (h : escapeLetter? quote c = none) :
    c ≠ quote ∧ c ≠ '\\' := by
  constructor
  · rintro rfl
    cases kind <;> simp [StringKind.quote?] at hquote <;> subst hquote <;> revert h <;> decide
  · rintro rfl
    cases kind <;> simp [StringKind.quote?] at hquote <;> subst hquote <;> revert h <;> decide

theorem quote_ne_backslash {kind : StringKind} {quote : Char} (h : kind.quote? = some quote) :
    '\\' ≠ quote := by
  cases kind <;> simp [StringKind.quote?] at h <;> subst h <;> decide

namespace Lexer

/-! ## Quoted texts -/

/-- **A quoted text is read back**, without a warning, whatever follows it. -/
theorem quotedText_quoted {kind : StringKind} {quote : Char} (hquote : kind.quote? = some quote)
    (rest : List Char) : ∀ (cs : List Char) (pos : Nat),
      quotedText quote pos (cs.flatMap (quotedChar quote) ++ quote :: rest) =
        ⟨cs, (cs.flatMap (quotedChar quote)).length + 1, true, []⟩
  | [], pos => by
    rw [List.flatMap_nil, List.nil_append, List.length_nil]
    unfold quotedText
    rw [if_pos rfl]
  | c :: cs, pos => by
    rw [List.flatMap_cons, List.append_assoc, quotedChar]
    cases hletter : escapeLetter? quote c with
    | some letter =>
      have hfind := find?_of_escapeLetter? hletter
      have ih := quotedText_quoted hquote rest cs (pos + 2)
      simp only [List.cons_append, List.nil_append, List.length_cons]
      unfold quotedText
      simp only [if_neg (quote_ne_backslash hquote), if_true, hfind, ih, QuotedText.push]
    | none =>
      obtain ⟨hne, hslash⟩ := ne_of_escapeLetter?_eq_none hquote hletter
      have ih := quotedText_quoted hquote rest cs (pos + 1)
      simp only [List.cons_append, List.nil_append, List.length_cons]
      unfold quotedText
      simp only [if_neg hne, if_neg hslash, ih, QuotedText.push]

/-- What opens and closes a string of a kind, under any options. -/
theorem quote?_of_kind {kind : StringKind} {quote : Char} (h : kind.quote? = some quote)
    (o : LexicalOptions) : Alphabet.quote? o quote = some (kind, quote) ∧
      symbol? o quote = none ∧ spaces.contains quote = false := by
  cases kind <;> simp [StringKind.quote?] at h <;> subst h <;> exact ⟨rfl, rfl, by decide⟩

/-- **A quoted text is one string** of the kind of its quotes. -/
theorem piece_quoted {kind : StringKind} {quote : Char} (hquote : kind.quote? = some quote)
    (o : LexicalOptions) (pos : Nat) (cs rest : List Char) :
    piece o pos quote (cs.flatMap (quotedChar quote) ++ quote :: rest) =
      ⟨.token (.string (String.ofList cs) kind) [] none,
        (cs.flatMap (quotedChar quote)).length + 1⟩ := by
  obtain ⟨hopen, hsymbol, hspace⟩ := quote?_of_kind hquote o
  simp only [piece, hspace, hsymbol, hopen, quotedText_quoted hquote, Bool.false_eq_true, if_false,
    if_true]

/-! ## Bare words -/

/-- Whether a text is empty or begins with a character that ends a bare word. -/
def Closes (o : LexicalOptions) (rest : List Char) : Prop :=
  ∀ c, rest.head? = some c → endsWord o c = true

theorem reflect?_default (c : Char) : reflect? default c = some c := by
  unfold reflect?
  split
  · rfl
  · rfl

theorem symbol?_default (c : Char) : symbol? default c = Symbol.ofChar? c := by
  rw [symbol?, reflect?_default, Option.bind_some]

theorem endsWord_default (c : Char) :
    endsWord default c =
      (spaces.contains c || (significant.contains c && !wordMiddle.contains c)) := by
  rw [endsWord, reflect?_default, Option.getD_some]

theorem wordTail_append {o : LexicalOptions} {rest : List Char} (hrest : Closes o rest) :
    ∀ {cs : List Char}, (∀ c ∈ cs, endsWord o c = false) → wordTail o (cs ++ rest) = cs
  | [], _ => by
    cases rest with
    | nil => rfl
    | cons c rest =>
      have hc : endsWord o c = true := hrest c rfl
      rw [List.nil_append, wordTail, List.takeWhile_cons_of_neg (by simp [hc])]
  | c :: cs, h => by
    have hc : endsWord o c = false := h c List.mem_cons_self
    have hcs := wordTail_append hrest fun d hd => h d (List.mem_cons_of_mem c hd)
    rw [wordTail] at hcs
    rw [List.cons_append, wordTail, List.takeWhile_cons_of_pos (by simp [hc]), hcs]

/-- What makes a bare word one: its first character begins a word, and none ends it. -/
theorem of_isBareWord {c : Char} {cs : List Char} (h : isBareWord (c :: cs) = true) :
    forbiddenStart.contains c = false ∧ Symbol.ofChar? c = none ∧
      ∀ d ∈ c :: cs, endsWord default d = false := by
  simp only [isBareWord, Bool.and_eq_true, Bool.not_eq_true', Option.isNone_iff_eq_none,
    List.all_eq_true, Bool.or_eq_true] at h
  obtain ⟨⟨hstart, hsymbol⟩, hall⟩ := h
  refine ⟨hstart, hsymbol, fun d hd => ?_⟩
  obtain ⟨hspace, hmiddle⟩ := hall d hd
  rw [endsWord_default, hspace, Bool.false_or]
  rcases hmiddle with hmiddle | hmiddle <;> rw [hmiddle] <;> simp

/-- The quotes end a bare word; curly quotes do not, but open a text where they are reflected. -/
theorem quote?_eq_none_iff {o : LexicalOptions} {c : Char} (h : endsWord default c = false) :
    Alphabet.quote? o c = none ↔ (o.reflectFullWidth = true → c ≠ '“' ∧ c ≠ '‘') := by
  have hquotes : ∀ q ∈ ['\x27', '\x22', '\x60'], endsWord default q = true :=
    List.all_eq_true.mp (by decide)
  have hne : ∀ q ∈ ['\x27', '\x22', '\x60'], c ≠ q := by
    rintro q hq rfl
    rw [hquotes c hq] at h
    cases h
  rw [Alphabet.quote?, if_neg (hne _ (by simp)), if_neg (hne _ (by simp)), if_neg (hne _ (by simp))]
  constructor
  · intro hquote ho
    constructor
    · rintro rfl
      rw [if_pos ⟨rfl, ho⟩] at hquote
      cases hquote
    · rintro rfl
      rw [if_neg fun h => absurd h.1 (by decide), if_pos ⟨rfl, ho⟩] at hquote
      cases hquote
  · intro hcurly
    rw [if_neg fun h => (hcurly h.2).1 h.1, if_neg fun h => (hcurly h.2).2 h.1]

/-- A word is one string when its first character begins a word, none ends it and what stands behind
it does. -/
theorem piece_word {o : LexicalOptions} {c : Char} {cs rest : List Char}
    (hspace : spaces.contains c = false) (hsymbol : symbol? o c = none)
    (hquote : Alphabet.quote? o c = none) (hstart : forbiddenStart.contains c = false)
    (hcs : ∀ d ∈ cs, endsWord o d = false) (hrest : Closes o rest) (pos : Nat) :
    piece o pos c (cs ++ rest) =
      ⟨.token (.string (wordValue o (c :: cs)) .word) [] none, cs.length⟩ := by
  simp only [piece, hspace, hsymbol, hquote, hstart, wordTail_append hrest hcs, Bool.false_eq_true,
    if_false]

/-- **A bare word is one string** when what stands behind it ends a word. -/
theorem piece_bareWord {c : Char} {cs rest : List Char} (h : isBareWord (c :: cs) = true)
    (hrest : Closes default rest) (pos : Nat) :
    piece default pos c (cs ++ rest) =
      ⟨.token (.string (String.ofList (c :: cs)) .word) [] none, cs.length⟩ := by
  obtain ⟨hstart, hsymbol, hall⟩ := of_isBareWord h
  obtain ⟨hc, hcs⟩ := List.forall_mem_cons.mp hall
  have hspace : spaces.contains c = false := by
    rw [endsWord_default, Bool.or_eq_false_iff] at hc
    exact hc.1
  have hquote : Alphabet.quote? default c = none :=
    (quote?_eq_none_iff hc).mpr fun ho => absurd ho (by decide)
  rw [piece_word hspace ((symbol?_default c).trans hsymbol) hquote hstart hcs hrest]
  rfl

end Lexer

end PixQuery
