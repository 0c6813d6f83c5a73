import Mathlib.Data.List.Chain
import PixQuery.Proofs.Token.Quoting

/-!
# Lexemes that are written one behind the other

A script is a row of lexemes and spaces. It is legible when its bare words are bare words and
nothing in it runs into what stands behind it: a bare word ends before a space, a quote and all
symbols but a plus and a minus, and a symbol must not become a symbol of two characters. The text of
a legible script is cut into its lexemes again.

Results:
* `Lexer.pieces_lexeme`: a lexeme is one piece when what follows does not run into it.
* `Script.lex_chars`: the tokens of a legible script are its lexemes.
-/

namespace PixQuery

namespace Lexeme

/-- How a lexeme is written. -/
def chars : Lexeme → List Char
  | symbol s => s.spelling.toList
  | string value kind =>
    match kind.quote? with
    | none => value.toList
    | some quote => (quoted quote value).toList

/-- A bare word is one. Every text can stand between quotes. -/
def IsWritable : Lexeme → Prop
  | symbol _ => True
  | string value kind => kind = .word → isBareWord value.toList = true

/-- Whether a text does not run into a lexeme in front of it. -/
def StopsAt (rest : List Char) : Lexeme → Prop
  | symbol s => ∀ c, rest.head? = some c → s.extend? c = none
  | string _ kind => kind = .word → Lexer.Closes default rest

end Lexeme

namespace Symbol

/-- A symbol is one character, or two that begin with the character of a symbol. -/
theorem spelling_cases (s : Symbol) :
    (∃ c, s.spelling.toList = [c] ∧ ofChar? c = some s) ∨
      ∃ c d first, s.spelling.toList = [c, d] ∧ ofChar? c = some first ∧
        first.extend? d = some s := by
  cases s
  case gte => exact .inr ⟨'>', '=', gt, rfl, rfl, rfl⟩
  case lte => exact .inr ⟨'<', '=', lt, rfl, rfl, rfl⟩
  case dotDot => exact .inr ⟨'.', '.', dot, rfl, rfl, rfl⟩
  case tildePlus => exact .inr ⟨'~', '+', tilde, rfl, rfl, rfl⟩
  case tildeMinus => exact .inr ⟨'~', '-', tilde, rfl, rfl, rfl⟩
  all_goals exact .inl ⟨_, rfl, rfl⟩

theorem not_space_of_ofChar? {c : Char} {s : Symbol} (h : ofChar? c = some s) :
    Alphabet.spaces.contains c = false := by
  have hall : (Alphabet.spaces.all fun d => (ofChar? d).isNone) = true := by decide
  have hnone : ∀ d ∈ Alphabet.spaces, ofChar? d = none := fun d hd =>
    Option.isNone_iff_eq_none.mp (List.all_eq_true.mp hall d hd)
  rw [← Bool.not_eq_true, List.contains_iff_mem]
  intro hc
  rw [hnone c hc] at h
  cases h

end Symbol

namespace Lexer

theorem pieces_cons {o : LexicalOptions} {pos : Nat} {c : Char} (cs : List Char) {rest : List Char}
    {content : Content} (h : piece o pos c (cs ++ rest) = ⟨content, cs.length⟩) :
    pieces o pos (c :: cs ++ rest) =
      ⟨pos, content, c :: cs⟩ :: pieces o (pos + (c :: cs).length) rest := by
  rw [List.cons_append, pieces, h]
  simp only [List.take_left, List.drop_left, List.length_cons]
  rw [Nat.add_assoc, Nat.add_comm 1]

theorem piece_symbol {c : Char} {s : Symbol} (hs : Symbol.ofChar? c = some s) {rest : List Char}
    (hrest : ∀ d, rest.head? = some d → s.extend? d = none) (pos : Nat) :
    piece default pos c rest = ⟨.token (.symbol s) [] none, 0⟩ := by
  have hextend : (rest.head?.bind (Alphabet.reflect? default)).bind s.extend? = none := by
    cases hhead : rest.head? with
    | none => rfl
    | some d => rw [Option.bind_some, reflect?_default, Option.bind_some, hrest d hhead]
  simp only [piece, Symbol.not_space_of_ofChar? hs, symbol?_default, hs, hextend,
    Bool.false_eq_true, if_false]

theorem piece_doubleSymbol {c d : Char} {first s : Symbol} (hfirst : Symbol.ofChar? c = some first)
    (hs : first.extend? d = some s) (pos : Nat) (rest : List Char) :
    piece default pos c (d :: rest) = ⟨.token (.symbol s) [] none, 1⟩ := by
  simp only [piece, Symbol.not_space_of_ofChar? hfirst, symbol?_default, hfirst, List.head?_cons,
    Option.bind_some, reflect?_default, hs, Bool.false_eq_true, if_false]

/-- **A lexeme is one piece** of a text that goes on without running into it. -/
theorem pieces_lexeme {l : Lexeme} (hl : l.IsWritable) {rest : List Char} (hrest : l.StopsAt rest)
    (pos : Nat) : pieces default pos (l.chars ++ rest) =
      ⟨pos, .token l [] none, l.chars⟩ :: pieces default (pos + l.chars.length) rest := by
  cases l with
  | symbol s =>
    rw [Lexeme.chars]
    rcases s.spelling_cases with ⟨c, hspelling, hc⟩ | ⟨c, d, first, hspelling, hc, hd⟩
    · rw [hspelling]
      exact pieces_cons [] (piece_symbol hc hrest pos)
    · rw [hspelling]
      exact pieces_cons [d] (piece_doubleSymbol hc hd pos rest)
  | string value kind =>
    rw [Lexeme.chars]
    cases hquote : kind.quote? with
    | none =>
      obtain rfl : kind = .word := by cases kind <;> simp_all [StringKind.quote?]
      have hword := hl rfl
      simp only
      obtain ⟨c, cs, hvalue⟩ : ∃ c cs, value.toList = c :: cs := by
        cases hvalue : value.toList with
        | nil => rw [hvalue] at hword; cases hword
        | cons c cs => exact ⟨c, cs, rfl⟩
      rw [hvalue] at hword ⊢
      have hpiece := piece_bareWord hword (hrest rfl) pos
      rw [← hvalue, String.ofList_toList] at hpiece
      exact pieces_cons cs hpiece
    | some quote =>
      have hpiece := piece_quoted hquote default pos value.toList rest
      rw [String.ofList_toList] at hpiece
      have hchars : (quoted quote value).toList =
          quote :: (value.toList.flatMap (quotedChar quote) ++ [quote]) := by
        rw [quoted, String.toList_ofList]
        rfl
      simp only
      rw [hchars]
      refine pieces_cons _ ?_
      rw [List.append_assoc, List.singleton_append, hpiece, List.length_append,
        List.length_singleton]

theorem pieces_space (pos : Nat) (rest : List Char) :
    pieces default pos (' ' :: rest) = ⟨pos, .blank, [' ']⟩ :: pieces default (pos + 1) rest :=
  pieces_cons [] rfl

end Lexer

/-! ## Scripts -/

/-- What is written, piece by piece: lexemes, and spaces where there is none. -/
abbrev Script := List (Option Lexeme)

namespace Script

/-- How a piece of a script is written. -/
def pieceChars : Option Lexeme → List Char
  | none => [' ']
  | some l => l.chars

/-- How a script is written. -/
def chars (s : Script) : List Char := s.flatMap pieceChars

/-- The lexemes of a script. -/
def lexemes (s : Script) : List Lexeme := s.filterMap id

/-- Whether a piece can be told from the one right behind it. -/
def mayMeet : Option Lexeme → Option Lexeme → Bool
  | some (.string _ .word), some (.string _ .word) => false
  | some (.string _ .word), some (.symbol s) => s != .plus && s != .minus
  | some (.symbol .dot), some (.symbol s) => s != .dot && s != .dotDot
  | some (.symbol .tilde), some (.symbol s) => s != .plus && s != .minus
  | _, _ => true

/-- Bare words are bare words, and each piece can be told from the next. -/
structure Legible (s : Script) : Prop where
  writable : ∀ l, some l ∈ s → l.IsWritable
  apart : s.IsChain fun x y => mayMeet x y = true

variable {s t : Script} {x y : Option Lexeme}

/-- What the first character `c` of a piece tells of the piece. -/
structure BeginsWith (y : Option Lexeme) (c : Char) : Prop where
  ne_equals : c ≠ '='
  dot : c = '.' → y = some (.symbol .dot) ∨ y = some (.symbol .dotDot)
  sign : c = '+' ∨ c = '-' → y = some (.symbol .plus) ∨ y = some (.symbol .minus)
  ends : Alphabet.endsWord default c = false →
    (∃ value, y = some (.string value .word)) ∨ y = some (.symbol .plus) ∨ y = some (.symbol .minus)

theorem beginsWith_quote {value : String} {kind : StringKind} {quote : Char}
    (h : kind.quote? = some quote) : BeginsWith (some (.string value kind)) quote := by
  cases kind <;> simp [StringKind.quote?] at h <;> subst h <;>
    exact ⟨by decide, fun hc => absurd hc (by decide), fun hc => absurd hc (by decide),
      fun hc => absurd hc (by decide)⟩

/-- Every piece has a first character. -/
theorem exists_pieceChars (hy : ∀ l, y = some l → l.IsWritable) :
    ∃ c cs, pieceChars y = c :: cs ∧ BeginsWith y c := by
  match y with
  | none => exact ⟨' ', [], rfl, by decide, by decide, by decide, fun hc => absurd hc (by decide)⟩
  | some (.symbol s) =>
    cases s <;>
      exact ⟨_, _, rfl, by decide, by decide, by decide, by
        first | exact fun hc => absurd hc (by decide) | exact fun _ => by simp⟩
  | some (.string value kind) =>
    cases hquote : kind.quote? with
    | some quote =>
      refine ⟨quote, value.toList.flatMap (quotedChar quote) ++ [quote], ?_,
        beginsWith_quote hquote⟩
      simp only [pieceChars, Lexeme.chars, hquote, quoted, String.toList_ofList, List.cons_append]
    | none =>
      obtain rfl : kind = .word := by cases kind <;> simp_all [StringKind.quote?]
      have hword := hy _ rfl rfl
      cases hvalue : value.toList with
      | nil => rw [hvalue] at hword; cases hword
      | cons c cs =>
        rw [hvalue] at hword
        obtain ⟨hstart, hsymbol, _⟩ := Lexer.of_isBareWord hword
        refine ⟨c, cs, hvalue, ?_, ?_, ?_, fun _ => .inl ⟨value, rfl⟩⟩
        · rintro rfl
          cases hstart
        · rintro rfl
          cases hsymbol
        · rintro (rfl | rfl) <;> cases hsymbol

/-- A piece that may stand behind a lexeme does not run into it. -/
theorem stopsAt_of_mayMeet {l : Lexeme} (hy : ∀ m, y = some m → m.IsWritable)
    (h : mayMeet (some l) y = true) (rest : List Char) : l.StopsAt (pieceChars y ++ rest) := by
  obtain ⟨c, cs, hcs, hbegins⟩ := exists_pieceChars hy
  rw [hcs]
  cases l with
  | string value kind =>
    rintro rfl d hd
    obtain rfl : c = d := by simpa using hd
    rw [← Bool.not_eq_false]
    intro hends
    rcases hbegins.ends hends with ⟨v, rfl⟩ | rfl | rfl <;> cases h
  | symbol s =>
    intro d hd
    obtain rfl : c = d := by simpa using hd
    unfold Symbol.extend?
    split
    · exact absurd rfl hbegins.ne_equals
    · exact absurd rfl hbegins.ne_equals
    · rcases hbegins.dot rfl with rfl | rfl <;> cases h
    · rcases hbegins.sign (.inl rfl) with rfl | rfl <;> cases h
    · rcases hbegins.sign (.inr rfl) with rfl | rfl <;> cases h
    · rfl

theorem Legible.tail (h : Legible (x :: s)) : Legible s :=
  ⟨fun l hl => h.writable l (List.mem_cons_of_mem x hl), h.apart.tail⟩

theorem Legible.stopsAt {l : Lexeme} (h : Legible (some l :: s)) : l.StopsAt (chars s) := by
  cases s with
  | nil => cases l <;> simp [Lexeme.StopsAt, chars, Lexer.Closes]
  | cons y s =>
    have hmeet : mayMeet (some l) y = true := (List.isChain_cons_cons.mp h.apart).1
    have hy : ∀ m, y = some m → m.IsWritable := by
      rintro m rfl
      exact h.writable m (by simp)
    exact stopsAt_of_mayMeet hy hmeet (chars s)

/-- What a legible script is cut into: its lexemes, and nothing that is wrong. -/
theorem pieces_chars : ∀ {s : Script}, Legible s → ∀ pos,
    (((Lexer.pieces default pos (chars s)).filterMap Lexer.Placed.token?).map Token.lexeme =
        lexemes s ∧
      (Lexer.pieces default pos (chars s)).flatMap Lexer.Placed.warnings = [] ∧
      (Lexer.pieces default pos (chars s)).filterMap Lexer.Placed.error? = [])
  | [], _, _ => by
    rw [chars, List.flatMap_nil, Lexer.pieces]
    exact ⟨rfl, rfl, rfl⟩
  | none :: s, h, pos => by
    have hpieces : Lexer.pieces default pos (chars (none :: s)) = _ :=
      Lexer.pieces_space pos (chars s)
    rw [hpieces]
    exact pieces_chars h.tail (pos + 1)
  | some l :: s, h, pos => by
    have hpieces : Lexer.pieces default pos (chars (some l :: s)) = _ :=
      Lexer.pieces_lexeme (h.writable l List.mem_cons_self) h.stopsAt pos
    obtain ⟨htokens, hwarnings, herrors⟩ := pieces_chars h.tail (pos + l.chars.length)
    rw [hpieces]
    exact ⟨congrArg (l :: ·) htokens, hwarnings, herrors⟩

/-- **The tokens of a legible script** are its lexemes, and nothing is found to be wrong. -/
theorem lex_chars (h : Legible s) : ∃ tokens,
    lex default (String.ofList (chars s)) = ⟨some tokens, [], []⟩ ∧
      tokens.map Token.lexeme = lexemes s := by
  obtain ⟨htokens, hwarnings, herrors⟩ := pieces_chars h 0
  refine ⟨_, ?_, htokens⟩
  rw [lex, String.toList_ofList, Lexer.report, hwarnings, herrors]

end Script

end PixQuery
