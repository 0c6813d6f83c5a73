import PixQuery.Proofs.Token.Ranges

/-!
# A text is tiled by what is read from it

A text is cut into pieces that cover all of it. Each piece is read from the front of what is left of
the text: a blank is one space, a symbol one or two characters that are reflected to its spelling, a
bare word the characters that it covers, and a quoted text goes from the quote that opens it to the
first one behind it that closes it. A backslash takes the character behind it along, so that no such
quote closes the text. A quoted text that is not closed is the last piece.

Results:
* `Lexer.endsWell_quotedText`: where a quoted text ends.
* `Lexer.piece_reads`: what the characters of a piece are to its content.
* `Lexer.exists_piece`, `Lexer.piece_of_text`: each piece is read where it stands in the text.
* `Lexer.marks_pieces`: the tokens and the skipped runs, merged by their places, are the pieces but
  for the blanks.
* `Lexer.unclosed_pieces`: at most one quoted text is not closed, and it is reported.
* `lex_tiles`: all of this of a text that is cut into tokens.
-/

namespace PixQuery

open Alphabet

namespace Span

/-- The characters of a text that a span covers. -/
def covered (s : Span) (cs : List Char) : List Char :=
  (cs.drop s.start).take (s.stopOrNext - s.start)

/-- A position is in the span. -/
def Holds (s : Span) (i : Nat) : Prop := s.start ≤ i ∧ i < s.stopOrNext

theorem getElem?_covered {s : Span} {cs : List Char} {k : Nat} (h : s.start + k < s.stopOrNext) :
    (s.covered cs)[k]? = cs[s.start + k]? := by
  rw [covered, List.getElem?_take_of_lt (by omega), List.getElem?_drop]

end Span

/-- A symbol of two characters is written as the symbol that it begins with and one character. -/
theorem Symbol.spelling_of_extend? {first double : Symbol} {c : Char}
    (h : first.extend? c = some double) :
    double.spelling = first.spelling ++ String.singleton c := by
  unfold extend? at h
  split at h <;> cases h <;> rfl

namespace Lexer

variable {o : LexicalOptions}

/-! ## Quoted texts -/

/-- Characters behind an opening quote none of which closes the text. A backslash takes the
character behind it along. -/
inductive Inside (close : Char) : List Char → Prop
  | nil : Inside close []
  | plain {c : Char} {cs : List Char} (hclose : c ≠ close) (hslash : c ≠ '\\')
      (h : Inside close cs) : Inside close (c :: cs)
  | escaped (c : Char) {cs : List Char} (h : Inside close cs) : Inside close ('\\' :: c :: cs)

/-- The characters of a quoted text, from the quote that opens it to the first that closes it. -/
def IsClosed (o : LexicalOptions) (kind : StringKind) (cs : List Char) : Prop :=
  ∃ opening close inside, quote? o opening = some (kind, close) ∧ Inside close inside ∧
    cs = opening :: (inside ++ [close])

/-- The characters of a quoted text that nothing closes. A backslash at the end has nothing to take
along. -/
def IsOpen (o : LexicalOptions) (kind : StringKind) (opening : Char) (cs : List Char) : Prop :=
  ∃ close inside, quote? o opening = some (kind, close) ∧ Inside close inside ∧
    (cs = opening :: inside ∨ cs = opening :: (inside ++ ['\\']))

/-- Where a quoted text ends that was read from `cs`: behind the first character that closes it, or
at the end. -/
def EndsWell (close : Char) (cs : List Char) (q : QuotedText) : Prop :=
  (∃ inside behind, Inside close inside ∧ cs = inside ++ close :: behind ∧ q.closed = true ∧
    q.width = inside.length + 1) ∨
  ∃ inside, Inside close inside ∧ (cs = inside ∨ cs = inside ++ ['\\']) ∧ q.closed = false ∧
    q.width = cs.length

/-- Characters in front that do not close the text only make it longer. -/
theorem EndsWell.append {close : Char} {cs : List Char} {q q' : QuotedText}
    (h : EndsWell close cs q) (front : List Char)
    (hfront : ∀ {inside}, Inside close inside → Inside close (front ++ inside))
    (hclosed : q'.closed = q.closed) (hwidth : q'.width = q.width + front.length) :
    EndsWell close (front ++ cs) q' := by
  rcases h with ⟨inside, behind, hinside, rfl, hq, hlength⟩ | ⟨inside, hinside, hcs, hq, hlength⟩
  · refine .inl ⟨front ++ inside, behind, hfront hinside, ?_, hclosed.trans hq, ?_⟩
    · rw [List.append_assoc]
    · rw [hwidth, hlength, List.length_append]
      omega
  · refine .inr ⟨front ++ inside, hfront hinside, ?_, hclosed.trans hq, ?_⟩
    · rcases hcs with rfl | rfl
      · exact .inl rfl
      · exact .inr (List.append_assoc ..).symm
    · rw [hwidth, hlength, List.length_append, Nat.add_comm]

/-- **Where a quoted text ends**: behind the first character that closes it, or nowhere. -/
theorem endsWell_quotedText (close : Char) (pos : Nat) (cs : List Char) :
    EndsWell close cs (quotedText close pos cs) := by
  fun_induction quotedText close pos cs with
  | case1 => exact .inr ⟨[], .nil, .inl rfl, rfl, rfl⟩
  | case2 pos cs => exact .inl ⟨[], cs, .nil, rfl, rfl, rfl⟩
  | case3 => exact .inr ⟨[], .nil, .inr rfl, rfl, rfl⟩
  | case4 pos e rest q v hfind hclose ih => exact ih.append ['\\', e] (.escaped e) rfl rfl
  | case5 pos e rest q hfind q' hclose ih => exact ih.append ['\\', e] (.escaped e) rfl rfl
  | case6 pos c cs hclose hslash ih => exact ih.append [c] (.plain hclose hslash) rfl rfl

end Lexer

/-! ## What the characters of a token are to it -/

/-- The characters of a symbol, a bare word or a closed quoted text. -/
def Lexeme.Reads (o : LexicalOptions) (cs : List Char) : Lexeme → Prop
  | symbol s =>
    (cs.length = 1 ∨ cs.length = 2) ∧ cs.mapM (reflect? o) = some s.spelling.toList
  | string value .word =>
    value.toList = if o.underscoreAsSpace then cs.map fun c => if c = '_' then ' ' else c else cs
  | string _ kind => Lexer.IsClosed o kind cs

namespace Lexer

variable {o : LexicalOptions}

/-- The characters of a piece, and those behind it. A quoted text that is not closed goes to the end
of the text. -/
def Content.Reads (o : LexicalOptions) (range : Span) (cs behind : List Char) : Content → Prop
  | blank => ∃ c ∈ spaces, cs = [c]
  | unknown => True
  | token lexeme _ none => lexeme.Reads o cs
  | token lexeme _ (some fault) => ∃ value kind opening, lexeme = .string value kind ∧
      IsOpen o kind opening cs ∧ behind = [] ∧ fault = .unterminated opening range

theorem kind_ne_word {c close : Char} {kind : StringKind} (h : quote? o c = some (kind, close)) :
    kind ≠ .word := by
  rintro rfl
  unfold quote? at h
  repeat' split at h
  all_goals cases h

theorem reads_quoted {cs : List Char} {value : String} {kind : StringKind}
    (h : IsClosed o kind cs) :
    (Lexeme.string value kind).Reads o cs := by
  cases kind with
  | word =>
    obtain ⟨opening, close, inside, hquote, _⟩ := h
    exact absurd rfl (kind_ne_word hquote)
  | apostrophe => exact h
  | doubleQuotes => exact h
  | backticks => exact h

/-- **A piece** is what its characters say. -/
theorem piece_reads (pos : Nat) (c : Char) (cs : List Char) :
    (piece o pos c cs).content.Reads o (.between pos (pos + 1 + (piece o pos c cs).more))
      (c :: cs.take (piece o pos c cs).more) (cs.drop (piece o pos c cs).more) := by
  unfold piece
  split
  · rename_i hspace
    exact ⟨c, List.contains_iff_mem.mp hspace, rfl⟩
  split
  · rename_i s hsymbol
    obtain ⟨d, hd, hs⟩ := Option.bind_eq_some_iff.mp hsymbol
    have hspelling := Symbol.spelling_of_ofChar? hs
    split
    · rename_i double hdouble
      obtain ⟨e, he, hextend⟩ := Option.bind_eq_some_iff.mp hdouble
      obtain ⟨b, hb, hbe⟩ := Option.bind_eq_some_iff.mp he
      obtain ⟨rest, rfl⟩ := List.head?_eq_some_iff.mp hb
      refine ⟨.inr rfl, ?_⟩
      rw [Symbol.spelling_of_extend? hextend, hspelling]
      show [c, b].mapM (reflect? o) = _
      simp [hd, hbe]
    · refine ⟨.inl rfl, ?_⟩
      rw [hspelling]
      show [c].mapM (reflect? o) = _
      simp [hd]
  split
  · rename_i kind close hquote
    rcases endsWell_quotedText close (pos + 1) cs with
      ⟨inside, behind, hinside, rfl, hclosed, hwidth⟩ | ⟨inside, hinside, hcs, hclosed, hwidth⟩
    · simp only [hclosed, hwidth, if_true]
      refine reads_quoted ⟨c, close, inside, hquote, hinside, ?_⟩
      rw [List.append_cons, List.take_left' (by simp)]
    · simp only [hclosed, hwidth, Bool.false_eq_true, if_false, List.take_length, List.drop_length]
      refine ⟨_, kind, c, rfl, ⟨close, inside, hquote, hinside, ?_⟩, rfl, rfl⟩
      rcases hcs with rfl | rfl
      · exact .inl rfl
      · exact .inr rfl
  split
  · trivial
  · have hcovered : cs.take (wordTail o cs).length = wordTail o cs :=
      (List.prefix_iff_eq_take.mp (List.takeWhile_prefix _)).symm
    show (wordValue o (c :: wordTail o cs)).toList = _
    rw [hcovered, wordValue, String.toList_ofList]

/-! ## The pieces of a text -/

/-- The piece at the front of the text `c :: cs`, where it stands. -/
def frontPiece (o : LexicalOptions) (pos : Nat) (c : Char) (cs : List Char) : Placed :=
  ⟨pos, (piece o pos c cs).content, c :: cs.take (piece o pos c cs).more⟩

theorem length_frontPiece (o : LexicalOptions) (pos : Nat) (c : Char) (cs : List Char) :
    (frontPiece o pos c cs).chars.length = (piece o pos c cs).more + 1 := by
  rw [frontPiece, List.length_cons, List.length_take,
    Nat.min_eq_left (piece_within pos c cs (Nat.le_refl _)).1]

theorem range_frontPiece (o : LexicalOptions) (pos : Nat) (c : Char) (cs : List Char) :
    (frontPiece o pos c cs).range = .between pos (pos + 1 + (piece o pos c cs).more) := by
  rw [Placed.range, length_frontPiece, Nat.add_assoc, Nat.add_comm 1]
  rfl

theorem frontPiece_reads (pos : Nat) (c : Char) (cs : List Char) :
    (frontPiece o pos c cs).content.Reads o (frontPiece o pos c cs).range
      (frontPiece o pos c cs).chars (cs.drop (piece o pos c cs).more) :=
  range_frontPiece o pos c cs ▸ piece_reads pos c cs

/-- **Every piece** is read from the front of what is left of the text where it stands. -/
theorem exists_piece (pos : Nat) (cs : List Char) : ∀ p ∈ pieces o pos cs, ∃ before c behind,
    cs = before ++ c :: behind ∧ p = frontPiece o (pos + before.length) c behind := by
  fun_induction pieces o pos cs with
  | case1 => exact fun _ h => (by cases h)
  | case2 pos c cs p ih =>
    intro q hq
    rcases List.mem_cons.mp hq with rfl | hq
    · exact ⟨[], c, cs, rfl, rfl⟩
    · obtain ⟨before, d, behind, hcs, rfl⟩ := ih q hq
      have hmore : p.more ≤ cs.length := (piece_within pos c cs (Nat.le_refl _)).1
      refine ⟨c :: cs.take p.more ++ before, d, behind, ?_, ?_⟩
      · rw [List.append_assoc, ← hcs, List.cons_append, List.take_append_drop]
      · rw [List.length_append, List.length_cons, List.length_take, Nat.min_eq_left hmore]
        congr 1
        omega

/-- What a piece of the text `cs` gives. -/
inductive Placed.Gives (o : LexicalOptions) (cs : List Char) (p : Placed) : Prop
  /-- A blank gives nothing. -/
  | nothing {c : Char} (hc : c ∈ spaces) (hchars : p.chars = [c]) (hcontent : p.content = .blank)
      (htoken : p.token? = none) (herror : p.error? = none)
  /-- A symbol, a bare word or a closed quoted text. -/
  | token {lexeme : Lexeme} (hcontent : p.content ≠ .blank)
      (htoken : p.token? = some ⟨lexeme, p.range⟩) (herror : p.error? = none)
      (hreads : lexeme.Reads o p.chars)
  /-- A quoted text that nothing closes, and its fault. -/
  | unclosed {value : String} {kind : StringKind} {opening : Char} (hcontent : p.content ≠ .blank)
      (htoken : p.token? = some ⟨.string value kind, p.range⟩)
      (herror : p.error? = some (.unterminated opening p.range))
      (hopen : IsOpen o kind opening p.chars) (hstop : p.range.stopOrNext = cs.length)
  /-- A run of characters that no token begins with gives a fault. -/
  | skipped {text : String} (hcontent : p.content ≠ .blank) (htoken : p.token? = none)
      (herror : p.error? = some (.unrecognized text p.range))

/-- A piece gives what its characters say. -/
theorem Placed.gives_of_reads {cs behind : List Char} {p : Placed}
    (h : p.content.Reads o p.range p.chars behind)
    (hbehind : behind = [] → p.range.stopOrNext = cs.length) : p.Gives o cs := by
  obtain ⟨start, content, chars⟩ := p
  cases content with
  | blank =>
    obtain ⟨c, hc, hchars⟩ := h
    exact .nothing hc hchars rfl rfl rfl
  | unknown => exact .skipped Content.noConfusion rfl rfl
  | token lexeme warnings error =>
    cases error with
    | none => exact .token Content.noConfusion rfl rfl h
    | some fault =>
      obtain ⟨value, kind, opening, rfl, hopen, hnil, hfault⟩ := h
      exact .unclosed Content.noConfusion rfl (congrArg some hfault) hopen (hbehind hnil)

/-- **The pieces of a text** cover the characters where they stand, and give what these say. -/
theorem piece_of_text (cs : List Char) : ∀ p ∈ pieces o 0 cs,
    p.range.covered cs = p.chars ∧ p.Gives o cs := by
  intro p hp
  obtain ⟨before, c, behind, rfl, rfl⟩ := exists_piece 0 cs p hp
  rw [Nat.zero_add]
  refine ⟨?_, Placed.gives_of_reads (frontPiece_reads before.length c behind) fun hnil => ?_⟩
  · rw [Span.covered, Placed.range, Span.stopOrNext_between, Span.start_between,
      Nat.add_sub_cancel_left, length_frontPiece]
    show ((before ++ c :: behind).drop before.length).take _ = _
    rw [List.drop_left, List.take_succ_cons]
    rfl
  · have hmore : (piece o before.length c behind).more ≤ behind.length :=
      (piece_within _ c behind (Nat.le_refl _)).1
    have hall := List.drop_eq_nil_iff.mp hnil
    rw [range_frontPiece, Span.stopOrNext_between, List.length_append, List.length_cons]
    omega

/-- Every position of a text is in a piece. -/
theorem exists_holds (pos : Nat) (cs : List Char) : ∀ i, pos ≤ i → i < pos + cs.length →
    ∃ p ∈ pieces o pos cs, p.range.Holds i := by
  fun_induction pieces o pos cs with
  | case1 pos =>
    intro i hi hlt
    rw [List.length_nil] at hlt
    omega
  | case2 pos c cs p ih =>
    intro i hi hlt
    have hmore : p.more ≤ cs.length := (piece_within pos c cs (Nat.le_refl _)).1
    rw [List.length_cons] at hlt
    by_cases hhead : i < pos + 1 + p.more
    · refine ⟨_, List.mem_cons_self, hi, ?_⟩
      show i < pos + (c :: cs.take p.more).length
      rw [List.length_cons, List.length_take]
      omega
    · obtain ⟨q, hq, hholds⟩ := ih i (by omega) (by rw [List.length_drop]; omega)
      exact ⟨q, List.mem_cons_of_mem _ hq, hholds⟩

end Lexer

/-! ## Tokens and faults -/

/-- The faults of runs of characters that no token begins with. -/
def skipped (faults : List LexicalFault) : List LexicalFault :=
  faults.filter fun f => f.code == 1001

/-- The faults of quoted texts that are not closed. -/
def unclosed (faults : List LexicalFault) : List LexicalFault :=
  faults.filter fun f => f.code == 1002

/-- The places of tokens and of skipped runs, merged. -/
def marks (tokens : List Token) (faults : List LexicalFault) : List Span :=
  (tokens.map Token.range).merge ((skipped faults).map LexicalFault.range) fun s t =>
    s.start ≤ t.start

/-- A token of the text `cs` is a quoted text that nothing closes. It goes to the end of the text,
and is the only one that is reported. -/
def Token.IsUnclosed (o : LexicalOptions) (cs : List Char)
    (faults : List LexicalFault) (t : Token) : Prop :=
  ∃ value kind opening, t.lexeme = .string value kind ∧
    Lexer.IsOpen o kind opening (t.range.covered cs) ∧ t.stop = cs.length ∧
    unclosed faults = [.unterminated opening t.range]

/-- What is read from a text tiles it. -/
structure Tiles (o : LexicalOptions) (cs : List Char) (tokens : List Token)
    (faults : List LexicalFault) : Prop where
  /-- Tokens and skipped runs hold characters of the text. -/
  inside : ∀ s ∈ marks tokens faults, s.LiesIn (.between 0 cs.length)
  /-- They stand one behind the other. -/
  apart : (marks tokens faults).Pairwise fun s t => s.stopOrNext ≤ t.start
  /-- Between them there are only spaces. -/
  gaps : ∀ i c, cs[i]? = some c → (∀ s ∈ marks tokens faults, ¬ s.Holds i) → c ∈ spaces
  /-- A token is what its characters say, or is not closed. -/
  reads : ∀ t ∈ tokens, t.lexeme.Reads o (t.range.covered cs) ∨ t.IsUnclosed o cs faults
  /-- Only a token that is not closed is reported as such. -/
  reported : ∀ f ∈ unclosed faults, ∃ t ∈ tokens, t.range = f.range ∧ t.IsUnclosed o cs faults

namespace Lexer

variable {o : LexicalOptions} {cs : List Char} {p : Placed}

/-! ### Merging -/

section Merge

variable {α : Type} {le : α → α → Bool} {a : α} {as bs : List α}

theorem merge_cons_left (h : ∀ b ∈ bs, le a b = true) :
    (a :: as).merge bs le = a :: as.merge bs le := by
  cases bs with
  | nil => rw [List.merge_right, List.merge_right]
  | cons b bs => exact List.cons_merge_cons_pos le as bs (h b List.mem_cons_self)

theorem merge_cons_right (h : ∀ b ∈ bs, ¬ le b a = true) :
    bs.merge (a :: as) le = a :: bs.merge as le := by
  cases bs with
  | nil => rw [List.nil_merge, List.nil_merge]
  | cons b bs => exact List.cons_merge_cons_neg le bs as (h b List.mem_cons_self)

end Merge

/-- The pieces that are no blanks. -/
def solid (ps : List Placed) : List Placed := ps.filter fun p => p.content != .blank

theorem exists_of_mem_tokens {ps : List Placed} {s : Span}
    (h : s ∈ (ps.filterMap Placed.token?).map Token.range) : ∃ p ∈ ps, p.range = s := by
  obtain ⟨t, ht, rfl⟩ := List.mem_map.mp h
  obtain ⟨p, hp, hpt⟩ := List.mem_filterMap.mp ht
  exact ⟨p, hp, (token?_eq_some hpt).symm⟩

theorem exists_of_mem_faults {ps : List Placed} (hps : ∀ p ∈ ps, p.Gives o cs) {f : LexicalFault}
    (h : f ∈ ps.filterMap Placed.error?) : ∃ p ∈ ps, p.error? = some f ∧ p.range = f.range := by
  obtain ⟨p, hp, hpf⟩ := List.mem_filterMap.mp h
  refine ⟨p, hp, hpf, ?_⟩
  cases hps p hp with
  | nothing _ _ _ _ herror => cases herror.symm.trans hpf
  | token _ _ herror _ => cases herror.symm.trans hpf
  | unclosed _ _ herror _ _ =>
    obtain rfl := Option.some.inj (herror.symm.trans hpf)
    rfl
  | skipped _ _ herror =>
    obtain rfl := Option.some.inj (herror.symm.trans hpf)
    rfl

/-- **Tokens and skipped runs**, merged by their places, are the pieces but for the blanks. -/
theorem marks_pieces {ps : List Placed} (h : ∀ p ∈ ps, p.Gives o cs)
    (hapart : ps.Pairwise fun p q => p.range.start < q.range.start) :
    marks (ps.filterMap Placed.token?) (ps.filterMap Placed.error?) =
      (solid ps).map Placed.range := by
  induction ps with
  | nil => exact List.nil_merge _
  | cons p ps ih =>
    obtain ⟨hp, hps⟩ := List.forall_mem_cons.mp h
    obtain ⟨hbefore, hapart⟩ := List.pairwise_cons.mp hapart
    have ih := ih hps hapart
    have htokens : ∀ s ∈ (ps.filterMap Placed.token?).map Token.range,
        p.range.start < s.start := by
      intro s hs
      obtain ⟨q, hq, rfl⟩ := exists_of_mem_tokens hs
      exact hbefore q hq
    have hskipped : ∀ s ∈ (skipped (ps.filterMap Placed.error?)).map LexicalFault.range,
        p.range.start < s.start := by
      intro s hs
      obtain ⟨f, hf, rfl⟩ := List.mem_map.mp hs
      obtain ⟨q, hq, _, hrange⟩ := exists_of_mem_faults hps (List.mem_of_mem_filter hf)
      rw [← hrange]
      exact hbefore q hq
    have hleft : ∀ s ∈ (skipped (ps.filterMap Placed.error?)).map LexicalFault.range,
        decide (p.range.start ≤ s.start) = true := fun s hs =>
      decide_eq_true (Nat.le_of_lt (hskipped s hs))
    have hright : ∀ s ∈ (ps.filterMap Placed.token?).map Token.range,
        ¬ decide (s.start ≤ p.range.start) = true := by
      intro s hs hle
      exact absurd (of_decide_eq_true hle) (Nat.not_le_of_lt (htokens s hs))
    cases hp with
    | nothing _ _ hcontent htoken herror =>
      rw [List.filterMap_cons_none htoken, List.filterMap_cons_none herror, ih, solid, solid,
        List.filter_cons_of_neg (by simp [hcontent])]
    | token hcontent htoken herror _ =>
      rw [List.filterMap_cons_some htoken, List.filterMap_cons_none herror, solid,
        List.filter_cons_of_pos (by simpa using hcontent), List.map_cons, ← solid, ← ih]
      exact merge_cons_left hleft
    | unclosed hcontent htoken herror _ _ =>
      rw [List.filterMap_cons_some htoken, List.filterMap_cons_some herror, solid,
        List.filter_cons_of_pos (by simpa using hcontent), List.map_cons, ← solid, ← ih]
      exact merge_cons_left hleft
    | skipped hcontent htoken herror =>
      rw [List.filterMap_cons_none htoken, List.filterMap_cons_some herror, solid,
        List.filter_cons_of_pos (by simpa using hcontent), List.map_cons, ← solid, ← ih]
      exact merge_cons_right hright

/-- What is reported as unclosed is a quoted text at the end. -/
theorem Placed.Gives.of_unclosed (h : p.Gives o cs) {f : LexicalFault} (hf : p.error? = some f)
    (hcode : f.code = 1002) : ∃ value kind opening, f = .unterminated opening p.range ∧
      p.token? = some ⟨.string value kind, p.range⟩ ∧ IsOpen o kind opening p.chars ∧
      p.range.stopOrNext = cs.length := by
  cases h with
  | nothing _ _ _ _ herror => cases herror.symm.trans hf
  | token _ _ herror _ => cases herror.symm.trans hf
  | unclosed _ htoken herror hopen hstop =>
    exact ⟨_, _, _, Option.some.inj (hf.symm.trans herror), htoken, hopen, hstop⟩
  | skipped _ _ herror =>
    obtain rfl := Option.some.inj (herror.symm.trans hf)
    cases hcode

/-- A quoted text that nothing closes is the last piece, and so the only one that is reported. -/
theorem unclosed_pieces {ps : List Placed} (h : ∀ p ∈ ps, p.Gives o cs)
    (hapart : ps.Pairwise fun p q => p.range.stopOrNext ≤ q.range.start)
    (hinside : ∀ p ∈ ps, p.range.LiesIn (.between 0 cs.length)) (hp : p ∈ ps)
    (hstop : p.range.stopOrNext = cs.length) {opening : Char}
    (herror : p.error? = some (.unterminated opening p.range)) :
    unclosed (ps.filterMap Placed.error?) = [.unterminated opening p.range] := by
  have hholds : ∀ q ∈ ps, q.range.start < q.range.stopOrNext ∧ q.range.stopOrNext ≤ cs.length := by
    intro q hq
    obtain ⟨a, b, hrange, _, hab, hb⟩ := hinside q hq
    rw [hrange]
    exact ⟨hab, hb⟩
  obtain ⟨before, after, rfl⟩ := List.append_of_mem hp
  obtain ⟨_, hafter, hbefore⟩ := List.pairwise_append.mp hapart
  have hlast : after = [] := by
    refine List.eq_nil_iff_forall_not_mem.mpr fun q hq => ?_
    have hpq := (List.pairwise_cons.mp hafter).1 q hq
    have hq := hholds q (by simp [hq])
    omega
  have hnone : unclosed (before.filterMap Placed.error?) = [] := by
    refine List.filter_eq_nil_iff.mpr fun f hf hcode => ?_
    obtain ⟨q, hq, hqf⟩ := List.mem_filterMap.mp hf
    have hqp := hbefore q hq p List.mem_cons_self
    obtain ⟨_, _, _, _, _, _, hqstop⟩ :=
      (h q (List.mem_append_left _ hq)).of_unclosed hqf (beq_iff_eq.mp hcode)
    have hp := hholds p hp
    omega
  rw [hlast, List.filterMap_append, unclosed, List.filter_append, ← unclosed, hnone,
    List.filterMap_cons_some herror]
  rfl

theorem liesIn_of_piece (hp : p ∈ pieces o 0 cs) : p.range.LiesIn (.between 0 cs.length) :=
  ((pieces_between 0 cs (Nat.le_of_eq (Nat.zero_add cs.length))).1 p hp).range

theorem pairwise_pieces (o : LexicalOptions) (cs : List Char) :
    (pieces o 0 cs).Pairwise fun p q => p.range.stopOrNext ≤ q.range.start :=
  (pieces_between 0 cs (Nat.le_of_eq (Nat.zero_add cs.length))).2

theorem marks_text (o : LexicalOptions) (cs : List Char) :
    marks ((pieces o 0 cs).filterMap Placed.token?) ((pieces o 0 cs).filterMap Placed.error?) =
      (solid (pieces o 0 cs)).map Placed.range := by
  refine marks_pieces (fun p hp => (piece_of_text cs p hp).2) ?_
  refine (pairwise_pieces o cs).imp_of_mem fun {p q} hp _ hpq => ?_
  obtain ⟨a, b, hrange, _, hab, _⟩ := liesIn_of_piece hp
  rw [hrange, Span.stopOrNext_between] at hpq
  rw [hrange, Span.start_between]
  omega

/-- What no token and no skipped run holds is a space. -/
theorem mem_spaces_of_gap {i : Nat} {c : Char} (hi : cs[i]? = some c)
    (hgap : ∀ p ∈ solid (pieces o 0 cs), ¬ p.range.Holds i) : c ∈ spaces := by
  obtain ⟨hlt, _⟩ := List.getElem?_eq_some_iff.mp hi
  obtain ⟨p, hp, hholds⟩ := exists_holds (o := o) 0 cs i (Nat.zero_le i) (by omega)
  have hblank : p.content = .blank := by
    by_contra hcontent
    exact hgap p (List.mem_filter.mpr ⟨hp, bne_iff_ne.mpr hcontent⟩) hholds
  obtain ⟨hcovered, hgives⟩ := piece_of_text cs p hp
  cases hgives with
  | nothing hc hchars _ _ _ =>
    obtain ⟨k, rfl⟩ := Nat.exists_eq_add_of_le hholds.1
    rw [← Span.getElem?_covered hholds.2, hcovered, hchars] at hi
    obtain rfl := List.mem_singleton.mp (List.mem_of_getElem? hi)
    exact hc
  | token hcontent _ _ _ => exact absurd hblank hcontent
  | unclosed hcontent _ _ _ _ => exact absurd hblank hcontent
  | skipped hcontent _ _ => exact absurd hblank hcontent

theorem isUnclosed_of_isOpen {value : String} {kind : StringKind} {opening : Char}
    (hp : p ∈ pieces o 0 cs) (herror : p.error? = some (.unterminated opening p.range))
    (hopen : IsOpen o kind opening p.chars) (hstop : p.range.stopOrNext = cs.length) :
    Token.IsUnclosed o cs ((pieces o 0 cs).filterMap Placed.error?)
      ⟨.string value kind, p.range⟩ := by
  refine ⟨value, kind, opening, rfl, ?_, hstop, ?_⟩
  · rw [(piece_of_text cs p hp).1]
    exact hopen
  · exact unclosed_pieces (fun p hp => (piece_of_text cs p hp).2) (pairwise_pieces o cs)
      (fun p hp => liesIn_of_piece hp) hp hstop herror

end Lexer

/-- **A text is tiled** by the tokens that it is cut into and the runs of characters that are
skipped: they stand one behind the other with only spaces between them, and each token is what its
characters say. -/
theorem lex_tiles (o : LexicalOptions) (text : String) : ∃ tokens,
    (lex o text).result = some tokens ∧ Tiles o text.toList tokens (lex o text).errors := by
  refine ⟨_, rfl, ?_⟩
  constructor
  case inside =>
    intro s hs
    rw [lex, Lexer.report, Lexer.marks_text] at hs
    obtain ⟨p, hp, rfl⟩ := List.mem_map.mp hs
    exact Lexer.liesIn_of_piece (List.mem_of_mem_filter hp)
  case apart =>
    rw [lex, Lexer.report, Lexer.marks_text, List.pairwise_map]
    exact (Lexer.pairwise_pieces o text.toList).filter _
  case gaps =>
    intro i c hi hgap
    rw [lex, Lexer.report, Lexer.marks_text] at hgap
    exact Lexer.mem_spaces_of_gap hi fun p hp => hgap p.range (List.mem_map_of_mem hp)
  case reads =>
    intro t ht
    obtain ⟨p, hp, hpt⟩ := List.mem_filterMap.mp ht
    obtain ⟨hcovered, hgives⟩ := Lexer.piece_of_text text.toList p hp
    cases hgives with
    | nothing _ _ _ htoken _ => cases htoken.symm.trans hpt
    | token _ htoken _ hreads =>
      obtain rfl := Option.some.inj (htoken.symm.trans hpt)
      rw [hcovered]
      exact .inl hreads
    | unclosed _ htoken herror hopen hstop =>
      obtain rfl := Option.some.inj (htoken.symm.trans hpt)
      exact .inr (Lexer.isUnclosed_of_isOpen hp herror hopen hstop)
    | skipped _ htoken _ => cases htoken.symm.trans hpt
  case reported =>
    intro f hf
    obtain ⟨hf, hcode⟩ := List.mem_filter.mp hf
    obtain ⟨p, hp, hpf⟩ := List.mem_filterMap.mp hf
    obtain ⟨value, kind, opening, rfl, htoken, hopen, hstop⟩ :=
      (Lexer.piece_of_text text.toList p hp).2.of_unclosed hpf (beq_iff_eq.mp hcode)
    exact ⟨_, List.mem_filterMap.mpr ⟨p, hp, htoken⟩, rfl,
      Lexer.isUnclosed_of_isOpen hp hpf hopen hstop⟩

end PixQuery
