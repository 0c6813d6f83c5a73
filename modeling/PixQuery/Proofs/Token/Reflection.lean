import PixQuery.Proofs.Token.AsciiForms

/-!
# Full-width punctuation is read as ASCII

Where full-width punctuation is reflected, a text is to be read as if its ASCII form had been typed:
`asciiText` replaces every full-width mark and every curly quote. This holds piece by piece: a mark
is the same symbol, ends the same words and stops the same runs, and curly quotes that come in pairs
open and close the same texts. There is one exception. What stands in a string is kept as it is, so
that a word with a full-width plus, or with a curly quote behind its first character, is another
word than its ASCII form, and the quote does not end it.

Results:
* `Lexer.mirrored_piece`: a piece of a text and the piece of its ASCII form.
* `lex_asciiText`: both texts are read alike when no string holds such a character.
* `readsAlike_iff`: and only then.
-/

namespace PixQuery

/-! ## Pieces -/

namespace Lexer

open Alphabet

variable {u : Bool} {pos : Nat} {c : Char} {cs : List Char}

/-- Whether no string has a full-width mark or a curly quote in its value. -/
def Content.IsPlain : Content → Prop
  | .token (.string value _) _ _ => Lacks IsReflected value.toList
  | .token (.symbol _) _ _ | .blank | .unknown => True

/-- The piece at the front of a text is the piece at the front of its ASCII form, and what stands
behind it is paired. Skipped characters are their own ASCII forms. -/
structure Mirrored (u : Bool) (pos : Nat) (c : Char) (cs : List Char) : Prop where
  same : piece ⟨false, u⟩ pos (asciiForm c) (cs.map asciiForm) = piece ⟨true, u⟩ pos c cs
  behind : IsPaired (cs.drop (piece ⟨true, u⟩ pos c cs).more)
  skipped : (piece ⟨true, u⟩ pos c cs).content = .unknown →
    Lacks IsReflected (c :: cs.take (piece ⟨true, u⟩ pos c cs).more)

/-- Two ways to stop that agree on the characters that are passed, and where the first stops. -/
theorem takeWhile_eq_of_agree {α : Type} {p q : α → Bool} : ∀ {as : List α},
    (∀ a ∈ as.takeWhile p, q a = true) → (∀ a ∈ as, p a = false → q a = false) →
      as.takeWhile q = as.takeWhile p
  | [], _, _ => rfl
  | a :: as, hpass, hstop => by
    obtain ⟨ha, has⟩ := List.forall_mem_cons.mp hstop
    cases hp : p a with
    | false =>
      rw [List.takeWhile_cons_of_neg (by rw [ha hp]; decide),
        List.takeWhile_cons_of_neg (by rw [hp]; decide)]
    | true =>
      rw [List.takeWhile_cons_of_pos hp] at hpass ⊢
      obtain ⟨hq, hpass⟩ := List.forall_mem_cons.mp hpass
      rw [List.takeWhile_cons_of_pos hq, takeWhile_eq_of_agree hpass has]

theorem map_asciiForm_of_plain {ds : List Char} (h : Lacks IsReflected ds) :
    ds.map asciiForm = ds := by
  rw [List.map_congr_left fun d hd => asciiForm_of_plain (h d hd), List.map_id']

theorem mirrored_blank (hc : spaces.contains c = true) (hcs : IsPaired cs) :
    Mirrored u pos c cs := by
  have hpiece : piece ⟨true, u⟩ pos c cs = ⟨.blank, 0⟩ := by rw [piece, if_pos hc]
  constructor
  case same => rw [hpiece, piece, if_pos (by rw [spaces_asciiForm, hc])]
  case behind => rw [hpiece]; exact hcs
  case skipped => rw [hpiece]; exact fun h => by cases h

theorem mirrored_symbol {s : Symbol} (hspace : spaces.contains c = false)
    (hs : symbol? ⟨true, u⟩ c = some s) (hcs : IsPaired cs) : Mirrored u pos c cs := by
  have hhead : ((cs.map asciiForm).head?.bind (reflect? ⟨false, u⟩)).bind s.extend? =
      (cs.head?.bind (reflect? ⟨true, u⟩)).bind s.extend? := by
    cases cs with
    | nil => rfl
    | cons d cs => exact (extend?_asciiForm s u d).symm
  have hsame : piece ⟨false, u⟩ pos (asciiForm c) (cs.map asciiForm) =
      piece ⟨true, u⟩ pos c cs := by
    simp only [piece, spaces_asciiForm, hspace, ← symbol?_asciiForm, hs, hhead, Bool.false_eq_true,
      if_false]
  cases hdouble : (cs.head?.bind (reflect? ⟨true, u⟩)).bind s.extend? with
  | none =>
    have hpiece : piece ⟨true, u⟩ pos c cs = ⟨.token (.symbol s) [] none, 0⟩ := by
      simp only [piece, hspace, hs, hdouble, Bool.false_eq_true, if_false]
    exact ⟨hsame, by rw [hpiece]; exact hcs, by rw [hpiece]; exact fun h => by cases h⟩
  | some double =>
    have hpiece : piece ⟨true, u⟩ pos c cs = ⟨.token (.symbol double) [] none, 1⟩ := by
      simp only [piece, hspace, hs, hdouble, Bool.false_eq_true, if_false]
    refine ⟨hsame, ?_, by rw [hpiece]; exact fun h => by cases h⟩
    rw [hpiece]
    refine hcs.drop fun d hd hcurly => ?_
    cases cs with
    | nil => cases hd
    | cons e cs =>
      obtain rfl := List.mem_singleton.mp hd
      rw [List.head?_cons, Option.bind_some, reflect?_of_isCurly hcurly] at hdouble
      cases hdouble

theorem quotedText_of_plain {close : Char} {inside : List Char} (behind : List Char)
    (h : ∀ d ∈ inside, d ≠ close ∧ d ≠ '\\') (pos : Nat) :
    quotedText close pos (inside ++ close :: behind) = ⟨inside, inside.length + 1, true, []⟩ := by
  induction inside generalizing pos with
  | nil =>
    rw [List.nil_append]
    unfold quotedText
    rw [if_pos rfl]
    rfl
  | cons d ds ih =>
    obtain ⟨⟨hclose, hslash⟩, hds⟩ := List.forall_mem_cons.mp h
    rw [List.cons_append]
    unfold quotedText
    rw [if_neg hclose, if_neg hslash, ih hds]
    rfl

/-- A quoted text that is read on up to a character holds it. -/
theorem mem_quotedText {close d : Char} {front : List Char} (behind : List Char)
    (h : ∀ e ∈ front ++ [d], e ≠ close ∧ e ≠ '\\') (pos : Nat) :
    d ∈ (quotedText close pos (front ++ d :: behind)).value := by
  induction front generalizing pos with
  | nil =>
    obtain ⟨hclose, hslash⟩ := h d List.mem_cons_self
    rw [List.nil_append]
    unfold quotedText
    rw [if_neg hclose, if_neg hslash]
    exact List.mem_cons_self
  | cons e front ih =>
    obtain ⟨⟨hclose, hslash⟩, hfront⟩ := List.forall_mem_cons.mp h
    rw [List.cons_append]
    unfold quotedText
    rw [if_neg hclose, if_neg hslash]
    exact List.mem_cons_of_mem e (ih hfront _)

/-- A text between quotes with no backslash in it is one string. -/
theorem piece_of_plain {o : LexicalOptions} {kind : StringKind} {close : Char} {inside : List Char}
    (hspace : spaces.contains c = false) (hsymbol : symbol? o c = none)
    (hquote : Alphabet.quote? o c = some (kind, close))
    (h : ∀ d ∈ inside, d ≠ close ∧ d ≠ '\\') (behind : List Char) (pos : Nat) :
    piece o pos c (inside ++ close :: behind) =
      ⟨.token (.string (String.ofList inside) kind) [] none, inside.length + 1⟩ := by
  simp only [piece, hspace, hsymbol, hquote, quotedText_of_plain behind h, Bool.false_eq_true,
    if_false, if_true]

/-- Between quotes of a pair there is no other curly quote, or else the string would hold it. -/
theorem not_isCurly_inside {closing : Char} {inside behind : List Char}
    (hpair : (c, closing) ∈ curlyPairs) (hinside : IsPaired inside)
    (hquoting : Lacks IsQuoting inside)
    (hplain : (piece ⟨true, u⟩ pos c (inside ++ closing :: behind)).content.IsPlain) :
    Lacks IsCurly inside := by
  intro d hd hcurly
  obtain ⟨kind, hquote, -, hsymbol, hspace, -⟩ := exists_kind_of_mem hpair u
  have hclosing : IsCurly closing ∧ ∀ e ∈ curlyPairs, e.1 ≠ closing ∧ IsCurly e.1 := by
    have hall : ∀ e ∈ curlyPairs, IsCurly e.2 ∧ ∀ e' ∈ curlyPairs, e'.1 ≠ e.2 ∧ IsCurly e'.1 := by
      decide
    exact hall _ hpair
  obtain ⟨front, e, more, rfl, he, hfront⟩ := hinside.exists_opening ⟨d, hd, hcurly⟩
  have hread : ∀ x ∈ front ++ [e.1], x ≠ closing ∧ x ≠ '\\' := by
    intro x hx
    have hmem : x ∈ front ++ e.1 :: more :=
      (List.append_sublist_append_left front).mpr (by simp) |>.subset hx
    refine ⟨?_, fun h => hquoting x hmem (h ▸ by decide)⟩
    rcases List.mem_append.mp hx with hx | hx
    · exact fun h => hfront x hx (h ▸ hclosing.1)
    · rw [List.mem_singleton.mp hx]
      exact (hclosing.2 e he).1
  have hvalue := mem_quotedText (more ++ closing :: behind) hread (pos + 1)
  rw [List.append_assoc, List.cons_append] at hplain
  simp only [piece, hspace, hsymbol, hquote, Bool.false_eq_true, if_false, Content.IsPlain,
    String.toList_ofList] at hplain
  exact hplain e.1 hvalue (.inr (hclosing.2 e he).2)

theorem mirrored_quoted {closing : Char} {inside behind : List Char}
    (hpair : (c, closing) ∈ curlyPairs) (hinside : IsPaired inside)
    (hmarks : Lacks IsFullWidth inside) (hbehind : IsPaired behind)
    (hquoting : Lacks IsQuoting inside)
    (hplain : (piece ⟨true, u⟩ pos c (inside ++ closing :: behind)).content.IsPlain) :
    Mirrored u pos c (inside ++ closing :: behind) := by
  obtain ⟨kind, hquote, hform, hsymbol, hspace, -⟩ := exists_kind_of_mem hpair u
  have hcurly := not_isCurly_inside hpair hinside hquoting hplain
  have hclosing : IsCurly closing ∧ IsQuoting (asciiForm closing) := by
    have hall : ∀ e ∈ curlyPairs, IsCurly e.2 ∧ IsQuoting (asciiForm e.2) := by decide
    exact hall _ hpair
  have hslash : ∀ d ∈ inside, d ≠ '\\' := fun d hd h => hquoting d hd (h ▸ by decide)
  have hpiece := piece_of_plain hspace hsymbol hquote
    (fun d hd => ⟨fun h => hcurly d hd (h ▸ hclosing.1), hslash d hd⟩) behind pos
  have hmirror := piece_of_plain (by rw [spaces_asciiForm, hspace])
    (symbol?_asciiForm u c ▸ hsymbol) hform
    (fun d hd => ⟨fun h => hquoting d hd (h ▸ hclosing.2), hslash d hd⟩) (behind.map asciiForm) pos
  constructor
  case same =>
    rw [List.map_append, List.map_cons,
      map_asciiForm_of_plain fun d hd h => h.elim (hmarks d hd) (hcurly d hd), hmirror, hpiece]
  case behind =>
    rw [hpiece, List.drop_length_add_append]
    exact hbehind
  case skipped =>
    rw [hpiece]
    exact fun h => by cases h

theorem take_length_takeWhile {α : Type} (p : α → Bool) (as : List α) :
    as.take (as.takeWhile p).length = as.takeWhile p :=
  (List.prefix_iff_eq_take.mp (List.takeWhile_prefix p)).symm

/-- A run of characters that none of them stops is as long in the ASCII form, where a test of each
character and one of its ASCII form agree. -/
theorem takeWhile_asciiForm {p q : Char → Bool}
    (hpass : ∀ d ∈ cs.takeWhile p, q (asciiForm d) = true)
    (hstop : ∀ d ∈ cs, p d = false → q (asciiForm d) = false) :
    (cs.map asciiForm).takeWhile q = (cs.takeWhile p).map asciiForm := by
  have hagree : cs.takeWhile (q ∘ asciiForm) = cs.takeWhile p := takeWhile_eq_of_agree hpass hstop
  rw [List.takeWhile_map, hagree]

theorem piece_of_forbidden {o : LexicalOptions} (hspace : spaces.contains c = false)
    (hsymbol : symbol? o c = none) (hquote : Alphabet.quote? o c = none)
    (hstart : forbiddenStart.contains c = true) (pos : Nat) :
    piece o pos c cs = ⟨.unknown, (cs.takeWhile fun d => !isBoundary o d).length⟩ := by
  simp only [piece, hspace, hsymbol, hquote, hstart, Bool.false_eq_true, if_false, if_true]

theorem piece_of_start {o : LexicalOptions} (hspace : spaces.contains c = false)
    (hsymbol : symbol? o c = none) (hquote : Alphabet.quote? o c = none)
    (hstart : forbiddenStart.contains c = false) (pos : Nat) : piece o pos c cs =
      ⟨.token (.string (wordValue o (c :: wordTail o cs)) .word) [] none,
        (wordTail o cs).length⟩ := by
  simp only [piece, hspace, hsymbol, hquote, hstart, Bool.false_eq_true, if_false]

/-- A run of characters that no token begins with. -/
theorem mirrored_unknown (hspace : spaces.contains c = false) (hsymbol : symbol? ⟨true, u⟩ c = none)
    (hcurly : ¬ IsCurly c) (hstart : forbiddenStart.contains c = true) (hcs : IsPaired cs)
    (hquoting : Lacks IsQuoting (c :: cs)) : Mirrored u pos c cs := by
  obtain ⟨hc, hquoting⟩ := List.forall_mem_cons.mp hquoting
  obtain ⟨hquote, hform⟩ := quote?_asciiForm (u := u) hc hcurly
  have hpass : ∀ d ∈ cs.takeWhile (fun d => !isBoundary ⟨true, u⟩ d),
      isBoundary ⟨true, u⟩ d = false ∧ ¬ IsCurly d := by
    intro d hd
    have hopening : ∀ e ∈ curlyPairs, (!isBoundary ⟨true, u⟩ e.1) = false := by
      intro e he
      obtain ⟨kind, hquote, _⟩ := exists_kind_of_mem he u
      rw [isBoundary, hquote, Option.isSome_some, Bool.or_true, Bool.not_true]
    exact ⟨by simpa using List.mem_takeWhile_imp hd,
      hcs.not_isCurly_of_mem_takeWhile hopening d hd⟩
  have hrun : (cs.map asciiForm).takeWhile (fun d => !isBoundary ⟨false, u⟩ d) =
      (cs.takeWhile fun d => !isBoundary ⟨true, u⟩ d).map asciiForm := by
    refine takeWhile_asciiForm (fun d hd => ?_) fun d hd hstop => ?_
    · obtain ⟨hboundary, hd'⟩ := hpass d hd
      have hmem := (List.takeWhile_prefix _).subset hd
      rw [← isBoundary_asciiForm (hquoting d hmem) fun h => absurd h hd', hboundary, Bool.not_false]
    · have hboundary : isBoundary ⟨true, u⟩ d = true := by simpa using hstop
      rw [← isBoundary_asciiForm (hquoting d hd) fun h => exists_pair_of_isBoundary h hboundary,
        hboundary, Bool.not_true]
  have hpiece := @piece_of_forbidden c cs ⟨true, u⟩ hspace hsymbol hquote hstart pos
  have hmirror := @piece_of_forbidden (asciiForm c) (cs.map asciiForm) ⟨false, u⟩
    (by rw [spaces_asciiForm, hspace]) (by rw [← symbol?_asciiForm, hsymbol]) hform
    (by rw [forbiddenStart_asciiForm, hstart]) pos
  have hplain : Lacks IsReflected (c :: cs.takeWhile fun d => !isBoundary ⟨true, u⟩ d) := by
    refine List.forall_mem_cons.mpr ⟨?_, fun d hd => ?_⟩
    · rintro (hfull | h)
      · exact absurd hsymbol (symbol?_ne_none_of_isFullWidth hfull)
      · exact hcurly h
    · obtain ⟨hboundary, hd'⟩ := hpass d hd
      rintro (hfull | h)
      · rw [isBoundary_of_isFullWidth hfull] at hboundary
        cases hboundary
      · exact hd' h
  constructor
  case same => rw [hpiece, hmirror, hrun, List.length_map]
  case behind =>
    rw [hpiece]
    refine hcs.drop fun d hd => ?_
    rw [take_length_takeWhile] at hd
    exact (hpass d hd).2
  case skipped =>
    rw [hpiece, take_length_takeWhile]
    exact fun _ => hplain

/-- The characters of a word are in its value, underscores apart. -/
theorem mem_wordValue {o : LexicalOptions} (hc : c ∈ cs) (hne : c ≠ '_') :
    c ∈ (wordValue o cs).toList := by
  rw [wordValue, String.toList_ofList]
  split
  · exact List.mem_map.mpr ⟨c, hc, if_neg hne⟩
  · exact hc

/-- A word holds its characters, and spaces perhaps. -/
theorem eq_or_mem_of_mem_wordValue {o : LexicalOptions} (h : c ∈ (wordValue o cs).toList) :
    c = ' ' ∨ c ∈ cs := by
  rw [wordValue, String.toList_ofList] at h
  split at h
  · obtain ⟨d, hd, rfl⟩ := List.mem_map.mp h
    split
    · exact .inl rfl
    · exact .inr hd
  · exact .inr h

theorem mirrored_word (hspace : spaces.contains c = false) (hsymbol : symbol? ⟨true, u⟩ c = none)
    (hcurly : ¬ IsCurly c) (hquoting : ¬ IsQuoting c) (hstart : forbiddenStart.contains c = false)
    (hcs : IsPaired cs) (hplain : (piece ⟨true, u⟩ pos c cs).content.IsPlain) :
    Mirrored u pos c cs := by
  obtain ⟨hquote, hform⟩ := quote?_asciiForm (u := u) hquoting hcurly
  have hpiece := @piece_of_start c cs ⟨true, u⟩ hspace hsymbol hquote hstart pos
  have hmirror := @piece_of_start (asciiForm c) (cs.map asciiForm) ⟨false, u⟩
    (by rw [spaces_asciiForm, hspace]) (by rw [← symbol?_asciiForm, hsymbol]) hform
    (by rw [forbiddenStart_asciiForm, hstart]) pos
  have hword : Lacks IsReflected (c :: wordTail ⟨true, u⟩ cs) := by
    rw [hpiece] at hplain
    intro d hd hreflected
    exact hplain d (mem_wordValue hd fun h => absurd (h ▸ hreflected) (by decide)) hreflected
  obtain ⟨hc, htail⟩ := List.forall_mem_cons.mp hword
  have hrun : wordTail ⟨false, u⟩ (cs.map asciiForm) = wordTail ⟨true, u⟩ cs := by
    have hmap : wordTail ⟨false, u⟩ (cs.map asciiForm) = (wordTail ⟨true, u⟩ cs).map asciiForm := by
      refine takeWhile_asciiForm (fun d hd => ?_) fun d _ hstop => ?_
      · have hends : endsWord ⟨true, u⟩ d = false := by simpa using List.mem_takeWhile_imp hd
        rw [← endsWord_asciiForm fun h => htail d hd (.inr h), hends, Bool.not_false]
      · have hends : endsWord ⟨true, u⟩ d = true := by simpa using hstop
        have hd : ¬ IsCurly d := fun h => by
          rw [endsWord_of_isCurly h] at hends
          cases hends
        rw [← endsWord_asciiForm hd, hends, Bool.not_true]
    rw [hmap, map_asciiForm_of_plain htail]
  constructor
  case same =>
    rw [hpiece, hmirror, hrun, asciiForm_of_plain hc]
    rfl
  case behind =>
    rw [hpiece]
    refine hcs.drop fun d hd => ?_
    rw [wordTail, take_length_takeWhile] at hd
    exact fun h => htail d hd (.inr h)
  case skipped =>
    rw [hpiece]
    exact fun h => by cases h

/-- **A piece of a text is the piece of its ASCII form** when no string in it holds a full-width
mark or a curly quote. -/
theorem mirrored_piece (hpaired : IsPaired (c :: cs)) (hquoting : Lacks IsQuoting (c :: cs))
    (hplain : (piece ⟨true, u⟩ pos c cs).content.IsPlain) : Mirrored u pos c cs := by
  rcases hpaired.cases_cons with ⟨hcurly, hcs⟩ |
    ⟨closing, inside, behind, hpair, rfl, hinside, hmarks, hbehind⟩
  · cases hspace : spaces.contains c with
    | true => exact mirrored_blank hspace hcs
    | false =>
      cases hsymbol : symbol? ⟨true, u⟩ c with
      | some s => exact mirrored_symbol hspace hsymbol hcs
      | none =>
        cases hstart : forbiddenStart.contains c with
        | true => exact mirrored_unknown hspace hsymbol hcurly hstart hcs hquoting
        | false =>
          exact mirrored_word hspace hsymbol hcurly
            (hquoting c List.mem_cons_self) hstart hcs hplain
  · refine mirrored_quoted hpair hinside hmarks hbehind (fun d hd => ?_) hplain
    exact hquoting d (List.mem_cons_of_mem c (List.mem_append_left _ hd))

/-! ## Whole texts -/

/-- A report is made of what each piece adds to it. -/
theorem report_cons_congr {p q : Placed} {ps qs : List Placed} (htoken : p.token? = q.token?)
    (hwarnings : p.warnings = q.warnings) (herror : p.error? = q.error?)
    (h : report ps = report qs) : report (p :: ps) = report (q :: qs) := by
  simp only [report, Report.mk.injEq, Option.some.injEq] at h ⊢
  obtain ⟨htokens, hwarnings', herrors⟩ := h
  refine ⟨?_, ?_, ?_⟩
  · rw [List.filterMap_cons, List.filterMap_cons, htoken, htokens]
  · rw [List.flatMap_cons, List.flatMap_cons, hwarnings, hwarnings']
  · rw [List.filterMap_cons, List.filterMap_cons, herror, herrors]

/-- Of the characters of a piece only their number shows, unless they are skipped. -/
theorem error?_congr {content : Content} {cs ds : List Char}
    (hskipped : content = .unknown → cs = ds) :
    Placed.error? ⟨pos, content, cs⟩ = Placed.error? ⟨pos, content, ds⟩ := by
  cases content with
  | unknown => rw [hskipped rfl]
  | blank => rfl
  | token => rfl

theorem token?_congr {content : Content} {cs ds : List Char} (hlength : cs.length = ds.length) :
    Placed.token? ⟨pos, content, cs⟩ = Placed.token? ⟨pos, content, ds⟩ := by
  simp only [Placed.token?, Placed.range, hlength]

theorem report_asciiForm (u : Bool) (pos : Nat) (cs : List Char) : IsPaired cs →
    Lacks IsQuoting cs → (∀ p ∈ pieces ⟨true, u⟩ pos cs, p.content.IsPlain) →
      report (pieces ⟨true, u⟩ pos cs) = report (pieces ⟨false, u⟩ pos (cs.map asciiForm)) := by
  induction pos, cs using pieces.induct ⟨true, u⟩ with
  | case1 pos =>
    intro _ _ _
    rw [List.map_nil, pieces, pieces]
  | case2 pos c cs p ih =>
    intro hpaired hquoting hplain
    rw [pieces] at hplain ⊢
    obtain ⟨hfirst, hrest⟩ := List.forall_mem_cons.mp hplain
    have hmirror := mirrored_piece hpaired hquoting hfirst
    have hquoting' : Lacks IsQuoting (cs.drop p.more) := fun d hd =>
      hquoting d (List.mem_cons_of_mem c (List.mem_of_mem_drop hd))
    have hlength : (c :: cs.take p.more).length =
        (asciiForm c :: (cs.map asciiForm).take p.more).length := by
      simp only [List.length_cons, List.length_take, List.length_map]
    rw [List.map_cons, pieces]
    simp only [hmirror.same]
    refine report_cons_congr (token?_congr hlength) rfl (error?_congr fun hunknown => ?_) ?_
    · rw [← List.map_take, ← List.map_cons, map_asciiForm_of_plain (hmirror.skipped hunknown)]
    · rw [← List.map_drop]
      exact ih hmirror.behind hquoting' hrest

/-! ## Strings -/

/-- A quoted text in which nothing is reflected has a value in which nothing is. -/
theorem not_isReflected_quotedText (close : Char) (pos : Nat) (cs : List Char)
    (h : Lacks IsReflected cs) : Lacks IsReflected (quotedText close pos cs).value := by
  have hescapes : ∀ e v, find? escapes e = some v → ¬ IsReflected v := by
    intro e v hfind
    have hall : ∀ p ∈ escapes, ¬ IsReflected p.2 := by decide
    unfold find? at hfind
    obtain ⟨p, hp, rfl⟩ := Option.map_eq_some_iff.mp hfind
    exact hall p (List.mem_of_find?_eq_some hp)
  fun_induction quotedText close pos cs with
  | case1 => exact fun d hd => by cases hd
  | case2 => exact fun d hd => by cases hd
  | case3 => exact fun d hd => by cases hd
  | case4 pos e rest q v hfind hclose ih =>
    refine List.forall_mem_cons.mpr ⟨hescapes e v hfind, ih fun d hd => ?_⟩
    exact h d (List.mem_cons_of_mem _ (List.mem_cons_of_mem _ hd))
  | case5 pos e rest q hfind q' hclose ih =>
    obtain ⟨_, hrest⟩ := List.forall_mem_cons.mp h
    obtain ⟨he, hrest⟩ := List.forall_mem_cons.mp hrest
    exact List.forall_mem_cons.mpr ⟨he, ih hrest⟩
  | case6 pos c cs hclose hslash ih =>
    obtain ⟨hc, hcs⟩ := List.forall_mem_cons.mp h
    exact List.forall_mem_cons.mpr ⟨hc, ih hcs⟩

/-- A text in which nothing is reflected has no string in which anything is. -/
theorem isPlain_piece (o : LexicalOptions) (pos : Nat) (h : Lacks IsReflected (c :: cs)) :
    (piece o pos c cs).content.IsPlain := by
  unfold piece
  split
  · trivial
  split
  · split
    · trivial
    · trivial
  split
  · rename_i kind close _
    intro d hd
    rw [String.toList_ofList] at hd
    exact not_isReflected_quotedText close (pos + 1) cs
      (fun d hd => h d (List.mem_cons_of_mem c hd)) d hd
  split
  · trivial
  · intro d hd
    rcases eq_or_mem_of_mem_wordValue hd with rfl | hd
    · decide
    · have hword := (List.takeWhile_prefix (l := cs) fun d => !endsWord o d).subset
      exact h d (List.mem_cons.mpr ((List.mem_cons.mp hd).imp_right fun hd => hword hd))

theorem isPlain_pieces (o : LexicalOptions) (pos : Nat) (cs : List Char)
    (h : Lacks IsReflected cs) : ∀ p ∈ pieces o pos cs, p.content.IsPlain := by
  induction pos, cs using pieces.induct o with
  | case1 pos =>
    rw [pieces]
    exact fun p hp => by cases hp
  | case2 pos c cs p ih =>
    rw [pieces]
    refine List.forall_mem_cons.mpr ⟨isPlain_piece o pos h, ih fun d hd => ?_⟩
    exact h d (List.mem_cons_of_mem c (List.mem_of_mem_drop hd))

end Lexer

open Alphabet

/-- A text with every full-width mark and every curly quote replaced by its ASCII form. -/
def asciiText (text : String) : String := String.ofList (text.toList.map asciiForm)

/-- Whether no string of a report holds a full-width mark or a curly quote. -/
def StringsArePlain (r : Report (List Token) LexicalFault) : Prop :=
  ∀ t ∈ r.result.getD [], ∀ s ∈ t.string?, Lacks IsReflected s.1.toList

instance (r : Report (List Token) LexicalFault) : Decidable (StringsArePlain r) :=
  inferInstanceAs
    (Decidable (∀ t ∈ r.result.getD [], ∀ s ∈ t.string?, Lacks IsReflected s.1.toList))

/-- Two reports that agree about the terminals, ranges and values of the tokens, and about the codes
of what is wrong. -/
structure ReadsAlike (r s : Report (List Token) LexicalFault) : Prop where
  terminals : (r.result.getD []).map Token.terminal = (s.result.getD []).map Token.terminal
  ranges : (r.result.getD []).map Token.range = (s.result.getD []).map Token.range
  values : (r.result.getD []).map (fun t => t.string?.map Prod.fst) =
    (s.result.getD []).map fun t => t.string?.map Prod.fst
  warnings : r.warnings.map LexicalFault.code = s.warnings.map LexicalFault.code
  errors : r.errors.map LexicalFault.code = s.errors.map LexicalFault.code

/-- The strings of the pieces are the strings of the text. -/
theorem stringsArePlain_iff {o : LexicalOptions} {text : String} : StringsArePlain (lex o text) ↔
    ∀ p ∈ Lexer.pieces o 0 text.toList, p.content.IsPlain := by
  constructor
  · rintro h ⟨start, content, cs⟩ hp
    match content with
    | .token (.string value kind) warnings error =>
      exact h _ (List.mem_filterMap.mpr ⟨_, hp, rfl⟩) (value, kind) rfl
    | .token (.symbol _) _ _ | .blank | .unknown => trivial
  · intro h t ht s hstring
    obtain ⟨⟨start, content, cs⟩, hp, htoken⟩ := List.mem_filterMap.mp ht
    have hplain := h _ hp
    match content with
    | .token (.string _ _) _ _ =>
      cases htoken
      cases hstring
      exact hplain
    | .token (.symbol _) _ _ =>
      cases htoken
      cases hstring
    | .blank | .unknown => cases htoken

/-- **A text is read as its ASCII form**, to the last fault, when no string in it holds a full-width
mark or a curly quote. -/
theorem lex_asciiText {u : Bool} {text : String} (hquoting : Lacks IsQuoting text.toList)
    (hpaired : IsPaired text.toList) (hplain : StringsArePlain (lex ⟨true, u⟩ text)) :
    lex ⟨true, u⟩ text = lex ⟨false, u⟩ (asciiText text) := by
  rw [lex, lex, asciiText, String.toList_ofList]
  exact Lexer.report_asciiForm u 0 text.toList hpaired hquoting (stringsArePlain_iff.mp hplain)

/-- No string of an ASCII form holds a full-width mark or a curly quote. -/
theorem stringsArePlain_asciiText (o : LexicalOptions) (text : String) :
    StringsArePlain (lex o (asciiText text)) := by
  rw [stringsArePlain_iff, asciiText, String.toList_ofList]
  refine Lexer.isPlain_pieces o 0 _ fun d hd => ?_
  obtain ⟨c, _, rfl⟩ := List.mem_map.mp hd
  exact not_isReflected_asciiForm c

/-- **When a text is read as its ASCII form**: just when no string in it holds a full-width mark or
a curly quote. A word with a full-width plus or minus in it does, and so does one that runs into a
curly quote, or a quoted text with other curly quotes between its own. -/
theorem readsAlike_iff {u : Bool} {text : String} (hquoting : Lacks IsQuoting text.toList)
    (hpaired : IsPaired text.toList) :
    ReadsAlike (lex ⟨true, u⟩ text) (lex ⟨false, u⟩ (asciiText text)) ↔
      StringsArePlain (lex ⟨true, u⟩ text) := by
  constructor
  · intro h t ht s hs
    have hmem : some s.1 ∈ ((lex ⟨true, u⟩ text).result.getD []).map
        fun t => t.string?.map Prod.fst :=
      List.mem_map.mpr ⟨t, ht, by rw [Option.mem_def.mp hs]; rfl⟩
    rw [h.values] at hmem
    obtain ⟨t', ht', hvalue⟩ := List.mem_map.mp hmem
    obtain ⟨s', hs', hsame⟩ := Option.map_eq_some_iff.mp hvalue
    rw [← hsame]
    exact stringsArePlain_asciiText ⟨false, u⟩ text t' ht' s' hs'
  · intro hplain
    rw [← lex_asciiText hquoting hpaired hplain]
    exact ⟨rfl, rfl, rfl, rfl, rfl⟩

theorem readsAlike_iff_cat : Lacks IsQuoting "tag：“猫 咪”".toList ∧
    IsPaired "tag：“猫 咪”".toList ∧ asciiText "tag：“猫 咪”" = "tag:\x22猫 咪\x22" ∧
      ReadsAlike (lex ⟨true, false⟩ "tag：“猫 咪”") (lex ⟨false, false⟩ (asciiText "tag：“猫 咪”")) := by
  have hquoting : Lacks IsQuoting "tag：“猫 咪”".toList := by decide
  have hpaired : IsPaired "tag：“猫 咪”".toList := by
    have hinside : IsPaired (['猫', ' ', '咪'] ++ []) := .of_front (by decide) .nil
    have hpair : IsPaired ('“' :: (['猫', ' ', '咪'] ++ '”' :: [])) :=
      .pair (by decide) hinside (by decide) .nil
    exact @IsPaired.of_front _ "tag：".toList (by decide) hpair
  have hplain : StringsArePlain (lex ⟨true, false⟩ "tag：“猫 咪”") := by decide +kernel
  exact ⟨hquoting, hpaired, by decide, (readsAlike_iff hquoting hpaired).mpr hplain⟩

/-- A curly quote does not end a word, and a full-width plus in a word stays what it is. -/
theorem not_readsAlike_word :
    (Lacks IsQuoting "a“b”".toList ∧ IsPaired "a“b”".toList ∧ asciiText "a“b”" = "a\x22b\x22" ∧
      ¬ ReadsAlike (lex ⟨true, false⟩ "a“b”") (lex ⟨false, false⟩ (asciiText "a“b”"))) ∧
    Lacks IsQuoting "a＋b".toList ∧ IsPaired "a＋b".toList ∧ asciiText "a＋b" = "a+b" ∧
      ¬ ReadsAlike (lex ⟨true, false⟩ "a＋b") (lex ⟨false, false⟩ (asciiText "a＋b")) := by
  have hpair : IsPaired ('“' :: (['b'] ++ '”' :: [])) :=
    .pair (by decide) (.plain (by decide) .nil) (by decide) .nil
  constructor
  · refine ⟨by decide, .plain (by decide) hpair, by decide, fun h => ?_⟩
    exact absurd h.values (by decide +kernel)
  · refine ⟨by decide, ?_, by decide, fun h => ?_⟩
    · exact .plain (by decide) (.plain (by decide) (.plain (by decide) .nil))
    · exact absurd h.values (by decide +kernel)

end PixQuery
