import PixQuery.Proofs.Grammar.Derivation
import PixQuery.Token.Lexer

/-!
# Where tokens and their faults stand

A text is cut into pieces that stand one behind the other, and each piece covers a character. So do
the tokens, and what is wrong with a piece is found inside it or right behind the text.

Results:
* `Lexer.quotedText_within`, `Lexer.piece_within`: nothing goes beyond the end of the text.
* `Lexer.pieces_between`: the pieces of a text stand in it, one behind the other.
* `liesIn_of_lex`, `inOrder_of_lex`: so do its tokens.
* `isInText_of_mem_lex`: what is wrong with the spelling of a text is found in it.
-/

namespace PixQuery

namespace Span

/-- The span holds a character, and lies inside the other. -/
def LiesIn (s outer : Span) : Prop :=
  ∃ first stop, s = between first stop ∧ outer.start ≤ first ∧ first < stop ∧
    stop ≤ outer.stopOrNext

/-- The span belongs to a text of `n` characters. A single position may stand behind them. -/
def IsInText (n : Nat) (s : Span) : Prop :=
  s.start ≤ n ∧ ∀ stop ∈ s.stop, s.start ≤ stop ∧ stop ≤ n

variable {r s t : Span} {n : Nat}

theorem LiesIn.trans (h : r.LiesIn s) (hs : s.LiesIn t) : r.LiesIn t := by
  obtain ⟨a, b, rfl, hsa, hab, hbs⟩ := h
  obtain ⟨c, d, rfl, htc, hcd, hdt⟩ := hs
  rw [start_between] at hsa
  rw [stopOrNext_between] at hbs
  exact ⟨a, b, rfl, by omega, hab, by omega⟩

theorem LiesIn.start_le (h : r.LiesIn s) : s.start ≤ r.start := by
  obtain ⟨a, b, rfl, hsa, _, _⟩ := h
  exact hsa

theorem LiesIn.stop_le (h : r.LiesIn s) : r.stopOrNext ≤ s.stopOrNext := by
  obtain ⟨a, b, rfl, _, _, hbs⟩ := h
  exact hbs

/-- What holds two spans is inside all that holds both. -/
theorem LiesIn.cover (hr : r.LiesIn t) (hs : s.LiesIn t) : (r.cover s).LiesIn t := by
  obtain ⟨a, b, rfl, hta, hab, hbt⟩ := hr
  obtain ⟨c, d, rfl, htc, hcd, hdt⟩ := hs
  refine ⟨min a c, max b d, rfl, ?_, ?_, ?_⟩ <;> omega

/-- A span that holds a character lies inside itself. -/
theorem LiesIn.self (h : r.LiesIn t) : r.LiesIn r := by
  obtain ⟨a, b, rfl, _, hab, _⟩ := h
  exact ⟨a, b, rfl, Nat.le_refl a, hab, Nat.le_refl b⟩

theorem LiesIn.isInText (h : r.LiesIn (between 0 n)) : r.IsInText n := by
  obtain ⟨a, b, rfl, _, hab, hbn⟩ := h
  rw [stopOrNext_between] at hbn
  refine ⟨by simp only [start_between]; omega, fun stop hstop => ?_⟩
  obtain rfl := Option.some.inj hstop
  simp only [start_between]
  omega

theorem isInText_point {position : Nat} (h : position ≤ n) : (point position).IsInText n :=
  ⟨h, fun _ hstop => by cases hstop⟩

end Span

namespace Lexer

variable {o : LexicalOptions}

/-! ## Pieces -/

/-- **A quoted text** does not go beyond the end of the text, and neither do its warnings. -/
theorem quotedText_within {stop : Nat} (close : Char) (pos : Nat) (cs : List Char)
    (hstop : pos + cs.length ≤ stop) : (quotedText close pos cs).width ≤ cs.length ∧
      ∀ w ∈ (quotedText close pos cs).warnings, w.range.IsInText stop := by
  fun_induction quotedText close pos cs with
  | case1 => exact ⟨Nat.le_refl 0, fun _ h => by cases h⟩
  | case2 => exact ⟨by simp, fun _ h => by cases h⟩
  | case3 pos hclose =>
    refine ⟨by simp, fun w hw => ?_⟩
    obtain rfl := List.mem_singleton.mp hw
    exact Span.isInText_point hstop
  | case4 pos e rest q v hfind hclose ih =>
    simp only [List.length_cons] at hstop
    obtain ⟨hwidth, hwarnings⟩ := ih (by omega)
    exact ⟨Nat.add_le_add_right hwidth 2, hwarnings⟩
  | case5 pos e rest q hfind q' hclose ih =>
    simp only [List.length_cons] at hstop
    obtain ⟨hwidth, hwarnings⟩ := ih (by omega)
    refine ⟨Nat.add_le_add_right hwidth 2, fun w hw => ?_⟩
    rcases List.mem_cons.mp hw with rfl | hw
    · have hinside : (Span.between (pos + 1) (pos + 2)).LiesIn (.between 0 stop) :=
        ⟨pos + 1, pos + 2, rfl, Nat.zero_le _, by omega, by rw [Span.stopOrNext_between]; omega⟩
      exact hinside.isInText
    · exact hwarnings w hw
  | case6 pos c cs hclose hescape ih =>
    rw [List.length_cons] at hstop
    obtain ⟨hwidth, hwarnings⟩ := ih (by omega)
    exact ⟨Nat.add_le_add_right hwidth 1, hwarnings⟩

/-- What is wrong with a content is found before `stop`, or there when the text ends there. -/
def Content.Within (stop : Nat) : Content → Prop
  | blank | unknown => True
  | token _ warnings error =>
    (∀ w ∈ warnings, w.range.IsInText stop) ∧ ∀ e ∈ error, e.range.IsInText stop

theorem Content.within_token {stop : Nat} (lexeme : Lexeme) :
    (token lexeme [] none).Within stop :=
  ⟨fun _ h => (by cases h), fun _ h => (by cases h)⟩

/-- **A piece** does not go beyond the end of the text, and neither do its faults. -/
theorem piece_within {stop : Nat} (pos : Nat) (c : Char) (cs : List Char)
    (hstop : pos + 1 + cs.length ≤ stop) :
    (piece o pos c cs).more ≤ cs.length ∧ (piece o pos c cs).content.Within stop := by
  unfold piece
  split
  · exact ⟨Nat.zero_le _, trivial⟩
  split
  · split
    · rename_i double hdouble
      obtain ⟨first, hfirst, _⟩ := Option.bind_eq_some_iff.mp hdouble
      obtain ⟨d, hd, _⟩ := Option.bind_eq_some_iff.mp hfirst
      obtain ⟨ds, rfl⟩ := List.head?_eq_some_iff.mp hd
      exact ⟨by simp, Content.within_token _⟩
    · exact ⟨Nat.zero_le _, Content.within_token _⟩
  split
  · rename_i kind close hquote
    obtain ⟨hwidth, hwarnings⟩ := quotedText_within close (pos + 1) cs hstop
    refine ⟨hwidth, hwarnings, fun e he => ?_⟩
    split at he
    · cases he
    · obtain rfl := Option.some.inj he
      refine Span.LiesIn.isInText ⟨pos, _, rfl, Nat.zero_le _, by omega, ?_⟩
      rw [Span.stopOrNext_between]
      omega
  split
  · exact ⟨(List.takeWhile_sublist _).length_le, trivial⟩
  · exact ⟨(List.takeWhile_sublist _).length_le, Content.within_token _⟩

/-! ## Texts -/

/-- A piece holds a character between two positions, and its faults do not go beyond the second. -/
structure Placed.Between (start stop : Nat) (p : Placed) : Prop where
  range : p.range.LiesIn (.between start stop)
  content : p.content.Within stop

/-- **The pieces of a text** stand in it, one behind the other. -/
theorem pieces_between {stop : Nat} (pos : Nat) (cs : List Char) (hstop : pos + cs.length ≤ stop) :
    (∀ p ∈ pieces o pos cs, p.Between pos stop) ∧
      (pieces o pos cs).Pairwise fun p q => p.range.stopOrNext ≤ q.range.start := by
  fun_induction pieces o pos cs with
  | case1 => exact ⟨fun _ h => (by cases h), List.Pairwise.nil⟩
  | case2 pos c cs p ih =>
    rw [List.length_cons] at hstop
    obtain ⟨hmore, hcontent⟩ : p.more ≤ cs.length ∧ p.content.Within stop :=
      piece_within pos c cs (by omega)
    obtain ⟨hbetween, hapart⟩ := ih (by rw [List.length_drop]; omega)
    have hlength : (c :: cs.take p.more).length = p.more + 1 := by
      rw [List.length_cons, List.length_take, Nat.min_eq_left hmore]
    have hstart : ∀ q ∈ pieces o (pos + 1 + p.more) (cs.drop p.more),
        pos + 1 + p.more ≤ q.range.start := by
      intro q hq
      obtain ⟨a, b, hrange, ha, _, _⟩ := (hbetween q hq).range
      rw [hrange]
      exact ha
    refine ⟨fun q hq => ?_, List.pairwise_cons.mpr ⟨fun q hq => ?_, hapart⟩⟩
    · rcases List.mem_cons.mp hq with rfl | hq
      · refine ⟨⟨pos, _, rfl, Nat.le_refl _, ?_, ?_⟩, hcontent⟩
        · simp only [hlength]
          omega
        · simp only [hlength, Span.stopOrNext_between]
          omega
      · obtain ⟨⟨a, b, hrange, ha, hab, hb⟩, hwithin⟩ := hbetween q hq
        rw [Span.start_between] at ha
        exact ⟨⟨a, b, hrange, by rw [Span.start_between]; omega, hab, hb⟩, hwithin⟩
    · have hq := hstart q hq
      simp only [Placed.range, hlength, Span.stopOrNext_between] at hq ⊢
      omega

end Lexer

/-! ## Tokens and faults -/

variable {o : LexicalOptions} {text : String} {tokens : List Token}

theorem token?_eq_some {p : Lexer.Placed} {t : Token} (h : p.token? = some t) :
    t.range = p.range := by
  unfold Lexer.Placed.token? at h
  split at h
  · obtain rfl := Option.some.inj h
    rfl
  · cases h
  · cases h

theorem pieces_text (o : LexicalOptions) (text : String) :
    (∀ p ∈ Lexer.pieces o 0 text.toList, p.Between 0 text.length) ∧
      (Lexer.pieces o 0 text.toList).Pairwise fun p q => p.range.stopOrNext ≤ q.range.start :=
  Lexer.pieces_between 0 text.toList (Nat.le_of_eq (by rw [Nat.zero_add, String.length_toList]))

/-- **The tokens of a text** stand in it, each of them holding a character. -/
theorem liesIn_of_lex (h : (lex o text).result = some tokens) :
    ∀ t ∈ tokens, t.range.LiesIn (.between 0 text.length) := by
  obtain rfl := Option.some.inj h
  intro t ht
  obtain ⟨p, hp, hpt⟩ := List.mem_filterMap.mp ht
  rw [token?_eq_some hpt]
  exact ((pieces_text o text).1 p hp).range

/-- **The tokens of a text** are in its order. -/
theorem inOrder_of_lex (h : (lex o text).result = some tokens) : InOrder tokens := by
  refine ⟨fun t ht => ?_, ?_⟩
  · obtain ⟨a, b, hrange, _, hab, _⟩ := liesIn_of_lex h t ht
    simp only [Token.stop, hrange, Span.start_between, Span.stopOrNext_between]
    omega
  · obtain rfl := Option.some.inj h
    refine (pieces_text o text).2.filterMap _ fun p q hpq t ht u hu => ?_
    rw [Token.stop, token?_eq_some ht, token?_eq_some hu]
    exact hpq

/-- **What is wrong with the spelling of a text** is found in the text. -/
theorem isInText_of_mem_lex {f : LexicalFault}
    (h : f ∈ (lex o text).warnings ++ (lex o text).errors) : f.range.IsInText text.length := by
  have hpieces := (pieces_text o text).1
  rcases List.mem_append.mp h with h | h
  · obtain ⟨p, hp, hf⟩ := List.mem_flatMap.mp h
    have hcontent := (hpieces p hp).content
    unfold Lexer.Placed.warnings at hf
    split at hf
    · rename_i hcase
      rw [hcase] at hcontent
      exact hcontent.1 f hf
    · cases hf
    · cases hf
  · obtain ⟨p, hp, hf⟩ := List.mem_filterMap.mp h
    have hcontent := (hpieces p hp).content
    unfold Lexer.Placed.error? at hf
    split at hf
    · rename_i hcase
      rw [hcase] at hcontent
      exact hcontent.2 f hf
    · cases hf
    · obtain rfl := Option.some.inj hf
      exact (hpieces p hp).range.isInText

end PixQuery
