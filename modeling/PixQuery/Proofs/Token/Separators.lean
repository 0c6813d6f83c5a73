import PixQuery.Proofs.Token.Tiling

/-!
# Texts with a space between them are read apart

What is read from a text does not depend on where the text stands, but for the places in it. And
nothing that begins in front of a blank goes on behind it: no symbol of two characters has one in
it, a bare word and a run of characters that no token begins with end there, and a quoted text that
is closed in front of it does not look any further. Only a quoted text that nothing closes goes on.

Results:
* `Lexer.pieces_shift`: the pieces of a text that stands further right.
* `Lexer.piece_separated`, `Lexer.pieces_separated`: a blank behind a text changes no piece of it.
* `lex_separated_iff`: two texts with a space between them are read apart, unless a quoted text in
  the first is not closed.
-/

namespace PixQuery

open Alphabet

namespace Lexer

variable {o : LexicalOptions}

/-! ## Texts that stand further right -/

/-- The same content, `n` characters further right. -/
def Content.shift (n : Nat) : Content → Content
  | token lexeme warnings error =>
    .token lexeme (warnings.map (LexicalFault.shift · n)) (error.map (LexicalFault.shift · n))
  | blank => blank
  | unknown => unknown

/-- The same piece, `n` characters further right. -/
def Placed.shift (n : Nat) (p : Placed) : Placed := ⟨p.start + n, p.content.shift n, p.chars⟩

theorem quotedText_close (close : Char) (pos : Nat) (cs : List Char) :
    quotedText close pos (close :: cs) = ⟨[], 1, true, []⟩ := by
  rw [quotedText.eq_def]
  exact if_pos rfl

theorem quotedText_plain {close c : Char} (hclose : c ≠ close) (hslash : c ≠ '\\') (pos : Nat)
    (cs : List Char) :
      quotedText close pos (c :: cs) = (quotedText close (pos + 1) cs).push c 1 := by
  rw [quotedText.eq_def]
  simp only [if_neg hclose, if_neg hslash]

theorem quotedText_shift (n : Nat) (close : Char) (pos : Nat) (cs : List Char) :
    quotedText close (pos + n) cs = { quotedText close pos cs with
      warnings := (quotedText close pos cs).warnings.map (LexicalFault.shift · n) } := by
  fun_induction quotedText close pos cs with
  | case1 => rfl
  | case2 pos cs => exact quotedText_close close (pos + n) cs
  | case3 pos hclose =>
    rw [quotedText, if_neg hclose, if_pos rfl, Nat.add_right_comm]
    rfl
  | case4 pos e rest q v hfind hclose ih =>
    rw [quotedText, if_neg hclose, if_pos rfl]
    simp only [hfind, Nat.add_right_comm pos n, ih]
    rfl
  | case5 pos e rest q hfind q' hclose ih =>
    rw [quotedText, if_neg hclose, if_pos rfl]
    simp only [hfind, Nat.add_right_comm pos n, ih]
    rfl
  | case6 pos c cs hclose hslash ih =>
    rw [quotedText_plain hclose hslash, Nat.add_right_comm pos n, ih]
    rfl

theorem piece_shift (n pos : Nat) (c : Char) (cs : List Char) : piece o (pos + n) c cs =
    ⟨(piece o pos c cs).content.shift n, (piece o pos c cs).more⟩ := by
  unfold piece
  split
  · rfl
  split
  · split <;> rfl
  split
  · simp only [Nat.add_right_comm pos n, quotedText_shift n]
    split
    · rfl
    · simp only [Content.shift, Option.map_some, LexicalFault.shift, Span.shift, Span.between,
        Nat.add_right_comm _ n]
  split
  · rfl
  · rfl

/-- **The pieces of a text that stands further right** are the same, further right. -/
theorem pieces_shift (n pos : Nat) (cs : List Char) :
    pieces o (pos + n) cs = (pieces o pos cs).map (Placed.shift n) := by
  fun_induction pieces o pos cs with
  | case1 => rw [pieces, List.map_nil]
  | case2 pos c cs p ih =>
    have hpos : pos + n + 1 + p.more = pos + 1 + p.more + n := by omega
    rw [pieces, piece_shift, List.map_cons, ← ih]
    simp only [← hpos]
    rfl

theorem range_shift (n : Nat) (p : Placed) : (p.shift n).range = p.range.shift n := by
  simp only [Placed.range, Placed.shift, Span.shift, Span.between, Option.map_some,
    Nat.add_right_comm]

theorem token?_shift (n : Nat) (p : Placed) :
    (p.shift n).token? = p.token?.map (Token.shift · n) := by
  obtain ⟨start, content, chars⟩ := p
  have hrange := range_shift n ⟨start, content, chars⟩
  cases content with
  | blank => rfl
  | unknown => rfl
  | token lexeme warnings error =>
    simp only [Placed.token?, Option.map_some, Token.shift, ← hrange]
    rfl

theorem warnings_shift (n : Nat) (p : Placed) :
    (p.shift n).warnings = p.warnings.map (LexicalFault.shift · n) := by
  obtain ⟨start, content, chars⟩ := p
  cases content <;> rfl

theorem error?_shift (n : Nat) (p : Placed) :
    (p.shift n).error? = p.error?.map (LexicalFault.shift · n) := by
  obtain ⟨start, content, chars⟩ := p
  have hrange := range_shift n ⟨start, content, chars⟩
  cases content with
  | blank => rfl
  | token lexeme warnings error => rfl
  | unknown =>
    simp only [Placed.error?, Option.map_some, LexicalFault.shift, ← hrange]
    rfl

/-! ## What ends in front of a blank -/

/-- A content is no quoted text that nothing closes. -/
def Content.IsWhole : Content → Prop
  | token _ _ error => error = none
  | blank | unknown => True

variable {b : Char} {cs : List Char}

theorem takeWhile_separated {p : Char → Bool} (hb : p b = false) (rest : List Char) :
    (cs ++ b :: rest).takeWhile p = cs.takeWhile p := by
  induction cs with
  | nil => exact List.takeWhile_cons_of_neg (by simp [hb])
  | cons c cs ih => rw [List.cons_append, List.takeWhile_cons, List.takeWhile_cons, ih]

/-- A quoted text that is closed does not look behind the character that closes it. -/
theorem quotedText_append {close : Char} {pos : Nat} (rest : List Char)
    (h : (quotedText close pos cs).closed = true) :
    quotedText close pos (cs ++ rest) = quotedText close pos cs := by
  fun_induction quotedText close pos cs with
  | case1 => cases h
  | case2 pos cs => exact quotedText_close close pos (cs ++ rest)
  | case3 => cases h
  | case4 pos e cs q v hfind hclose ih =>
    rw [List.cons_append, List.cons_append, quotedText, if_neg hclose, if_pos rfl]
    simp only [hfind, ih h]
    rfl
  | case5 pos e cs q hfind q' hclose ih =>
    rw [List.cons_append, List.cons_append, quotedText, if_neg hclose, if_pos rfl]
    simp only [hfind, ih h]
    rfl
  | case6 pos c cs hclose hslash ih =>
    rw [List.cons_append, quotedText_plain hclose hslash, ih h]

/-- No symbol goes on with a blank. -/
theorem extend?_of_blank (hb : spaces.contains b = true) (s : Symbol) :
    (reflect? o b).bind s.extend? = none := by
  have hmem := List.contains_iff_mem.mp hb
  have hascii : spaces.all (fun c => c.toNat < 128) = true := by decide
  have hreflect : reflect? o b = some b :=
    if_pos (of_decide_eq_true (List.all_eq_true.mp hascii b hmem))
  have hnone : spaces.all (fun c => (s.extend? c).isNone) = true := by cases s <;> decide
  rw [hreflect]
  exact Option.isNone_iff_eq_none.mp (List.all_eq_true.mp hnone b hmem)

/-- **A blank behind a text** does not change the piece at its front, unless this is a quoted text
that nothing closes. -/
theorem piece_separated (hb : spaces.contains b = true) (rest : List Char) {pos : Nat} {c : Char}
    (h : (piece o pos c cs).content.IsWhole) :
    piece o pos c (cs ++ b :: rest) = piece o pos c cs := by
  unfold piece at h ⊢
  split
  · rfl
  rename_i hspace
  rw [if_neg hspace] at h
  split
  · rename_i s hsymbol
    have hnext : ((cs ++ b :: rest).head?.bind (reflect? o)).bind s.extend? =
        (cs.head?.bind (reflect? o)).bind s.extend? := by
      cases cs with
      | nil => exact extend?_of_blank hb s
      | cons => rfl
    rw [hnext]
  rename_i hsymbol
  rw [hsymbol] at h
  simp only at h
  split
  · rename_i kind close hquote
    rw [hquote] at h
    have hclosed : (quotedText close (pos + 1) cs).closed = true := by
      by_contra hopen
      simp only [if_neg hopen] at h
      cases h
    rw [quotedText_append _ hclosed]
  split
  · rw [takeWhile_separated (by rw [isBoundary, hb]; rfl)]
  · rw [wordTail, takeWhile_separated (by rw [endsWord, hb]; rfl)]
    rfl

/-- **A blank behind a text** is a piece of its own between the pieces of the text and those behind
it, unless a quoted text is not closed. -/
theorem pieces_separated (hb : spaces.contains b = true) (rest : List Char) (pos : Nat)
    (h : ∀ p ∈ pieces o pos cs, p.content.IsWhole) : pieces o pos (cs ++ b :: rest) =
      pieces o pos cs ++ ⟨pos + cs.length, .blank, [b]⟩ :: pieces o (pos + cs.length + 1) rest := by
  fun_induction pieces o pos cs with
  | case1 pos =>
    have hpiece : piece o pos b rest = ⟨.blank, 0⟩ := if_pos hb
    rw [List.nil_append, pieces, hpiece]
    rfl
  | case2 pos c cs p ih =>
    obtain ⟨hhead, htail⟩ := List.forall_mem_cons.mp h
    have hmore : p.more ≤ cs.length := (piece_within pos c cs (Nat.le_refl _)).1
    have hstop : pos + 1 + p.more + (cs.drop p.more).length = pos + (c :: cs).length := by
      rw [List.length_drop, List.length_cons]
      omega
    have ih := ih htail
    rw [hstop] at ih
    rw [List.cons_append, pieces, piece_separated hb rest hhead]
    rw [List.take_append_of_le_length hmore, List.drop_append_of_le_length hmore, ih]
    rfl

/-- A quoted text that nothing closes is reported. -/
theorem isWhole_of_mem_pieces (h : unclosed ((pieces o 0 cs).filterMap Placed.error?) = []) :
    ∀ p ∈ pieces o 0 cs, p.content.IsWhole := by
  intro p hp
  obtain ⟨before, c, behind, -, rfl⟩ := exists_piece 0 cs p hp
  have hreads := @frontPiece_reads o (0 + before.length) c behind
  generalize frontPiece o (0 + before.length) c behind = p at hp hreads
  cases hcontent : p.content with
  | blank => trivial
  | unknown => trivial
  | token lexeme warnings error =>
    cases error with
    | none => rfl
    | some fault =>
      rw [hcontent] at hreads
      obtain ⟨_, _, _, _, _, _, rfl⟩ := hreads
      refine absurd ?_ (List.filter_eq_nil_iff.mp h _
        (List.mem_filterMap.mpr ⟨p, hp, by rw [Placed.error?, hcontent]⟩))
      rfl

end Lexer

/-! ## Two texts -/

/-- What is read from two texts, the second of which stands behind `n` characters. -/
def Report.beside (n : Nat) (r s : Report (List Token) LexicalFault) :
    Report (List Token) LexicalFault where
  result := r.result.bind fun tokens => s.result.map fun others =>
    tokens ++ others.map (Token.shift · n)
  warnings := r.warnings ++ s.warnings.map (LexicalFault.shift · n)
  errors := r.errors ++ s.errors.map (LexicalFault.shift · n)

/-- A blank between pieces gives nothing. -/
theorem Lexer.report_separated (n pos : Nat) (b : Char) (ps qs : List Placed) :
    report (ps ++ ⟨pos, .blank, [b]⟩ :: qs.map (Placed.shift n)) =
      (report ps).beside n (report qs) := by
  have htokens : (qs.map (Placed.shift n)).filterMap Placed.token? =
      (qs.filterMap Placed.token?).map (Token.shift · n) := by
    rw [List.filterMap_map, List.map_filterMap]
    exact List.filterMap_congr fun p _ => token?_shift n p
  have hwarnings : (qs.map (Placed.shift n)).flatMap Placed.warnings =
      (qs.flatMap Placed.warnings).map (LexicalFault.shift · n) := by
    rw [List.flatMap_map, List.map_flatMap]
    exact List.flatMap_congr fun p _ => warnings_shift n p
  have herrors : (qs.map (Placed.shift n)).filterMap Placed.error? =
      (qs.filterMap Placed.error?).map (LexicalFault.shift · n) := by
    rw [List.filterMap_map, List.map_filterMap]
    exact List.filterMap_congr fun p _ => error?_shift n p
  rw [report, List.filterMap_append, List.flatMap_append, List.filterMap_append,
    List.filterMap_cons_none rfl, List.flatMap_cons, List.filterMap_cons_none rfl, htokens,
    hwarnings, herrors]
  rfl

/-- A quoted text that nothing closes goes to the end of the text. -/
theorem stop_of_mem_unclosed {o : LexicalOptions} {text : String} {f : LexicalFault}
    (h : f ∈ unclosed (lex o text).errors) : f.range.stopOrNext = text.length := by
  obtain ⟨herror, hcode⟩ := List.mem_filter.mp h
  obtain ⟨p, hp, hpf⟩ := List.mem_filterMap.mp herror
  obtain ⟨_, _, _, rfl, _, _, hstop⟩ :=
    (Lexer.piece_of_text text.toList p hp).2.of_unclosed hpf (beq_iff_eq.mp hcode)
  rw [← String.length_toList]
  exact hstop

/-- **Two texts with a space between them are read apart**, the second one as if it stood alone,
just when all quoted texts in the first are closed. -/
theorem lex_separated_iff (o : LexicalOptions) (s t : String) :
    lex o (s ++ " " ++ t) = (lex o s).beside (s.length + 1) (lex o t) ↔
      unclosed (lex o s).errors = [] := by
  constructor
  · intro h
    refine List.eq_nil_iff_forall_not_mem.mpr fun f hf => ?_
    have hboth : f ∈ unclosed (lex o (s ++ " " ++ t)).errors := by
      rw [h, Report.beside, unclosed, List.filter_append]
      exact List.mem_append_left _ hf
    have hstop := stop_of_mem_unclosed hboth
    rw [stop_of_mem_unclosed hf, String.length_append, String.length_append] at hstop
    have hspace : " ".length = 1 := rfl
    omega
  · intro h
    have hchars : (s ++ " " ++ t).toList = s.toList ++ ' ' :: t.toList := by
      rw [String.toList_append, String.toList_append, List.append_assoc]
      rfl
    have hblank : spaces.contains ' ' = true := by decide
    rw [lex, hchars, Lexer.pieces_separated hblank t.toList 0 (Lexer.isWhole_of_mem_pieces h),
      Nat.add_assoc, Lexer.pieces_shift, Lexer.report_separated, String.length_toList]
    rfl

end PixQuery
