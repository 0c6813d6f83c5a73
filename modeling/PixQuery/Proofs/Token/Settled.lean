import Mathlib.Data.List.Basic
import PixQuery.Token.Lexer
import PixQuery.Token.Quoted

/-!
# Texts that are cut alike under all options

The options of the lexer are about full-width punctuation, curly quotes and the underscore. What is
written in ASCII without an underscore is settled: no option changes how it is cut into tokens.

Results:
* `lex_of_isSettled`: a settled text is cut alike under all options.
* `IsSettledText.append`, `.intercalate`, `.quotedIfNeeded`: texts that are put together of settled
  ones.
-/

namespace PixQuery

open Alphabet

/-! ## Characters -/

/-- A character that is read alike under all options. -/
def IsSettled (c : Char) : Prop := c.toNat < 128 ∧ c ≠ '_'

instance : DecidablePred IsSettled := fun _ => inferInstanceAs (Decidable (_ ∧ _))

section Characters

variable {c : Char} (o o' : LexicalOptions)

theorem reflect?_of_isSettled (h : IsSettled c) : reflect? o c = some c := if_pos h.1

theorem symbol?_of_isSettled (h : IsSettled c) : symbol? o c = symbol? o' c := by
  rw [symbol?, symbol?, reflect?_of_isSettled o h, reflect?_of_isSettled o' h]

theorem quote?_of_isSettled (h : IsSettled c) : Alphabet.quote? o c = Alphabet.quote? o' c := by
  have hdouble : c ≠ '“' := fun hc => absurd h.1 (hc ▸ by decide)
  have hsingle : c ≠ '‘' := fun hc => absurd h.1 (hc ▸ by decide)
  simp only [Alphabet.quote?, hdouble, hsingle, false_and, if_false]

theorem isBoundary_of_isSettled (h : IsSettled c) : isBoundary o c = isBoundary o' c := by
  rw [isBoundary, isBoundary, symbol?_of_isSettled o o' h, quote?_of_isSettled o o' h]

theorem endsWord_of_isSettled (h : IsSettled c) : endsWord o c = endsWord o' c := by
  rw [endsWord, endsWord, reflect?_of_isSettled o h, reflect?_of_isSettled o' h]

end Characters

/-! ## Texts -/

namespace Lexer

variable {cs : List Char} (o o' : LexicalOptions)

/-- What is passed before a stop depends on the characters of the text alone. -/
theorem takeWhile_congr {α : Type} {p q : α → Bool} : ∀ {as : List α}, (∀ a ∈ as, p a = q a) →
    as.takeWhile p = as.takeWhile q
  | [], _ => rfl
  | a :: as, h => by
    obtain ⟨ha, has⟩ := List.forall_mem_cons.mp h
    rw [List.takeWhile_cons, List.takeWhile_cons, ha, takeWhile_congr has]

theorem wordTail_of_isSettled (h : ∀ d ∈ cs, IsSettled d) : wordTail o cs = wordTail o' cs :=
  takeWhile_congr fun d hd => by rw [endsWord_of_isSettled o o' (h d hd)]

theorem wordValue_of_isSettled (h : ∀ d ∈ cs, IsSettled d) : wordValue o cs = String.ofList cs := by
  have hmap : (cs.map fun d => if d = '_' then ' ' else d) = cs := by
    rw [List.map_congr_left fun d hd => if_neg (h d hd).2, List.map_id']
  rw [wordValue, hmap, ite_self]

theorem piece_of_isSettled {c : Char} (h : ∀ d ∈ c :: cs, IsSettled d) (pos : Nat) :
    piece o pos c cs = piece o' pos c cs := by
  obtain ⟨hc, hcs⟩ := List.forall_mem_cons.mp h
  have hhead : cs.head?.bind (reflect? o) = cs.head?.bind (reflect? o') := by
    cases cs with
    | nil => rfl
    | cons d ds =>
      have hd := hcs d List.mem_cons_self
      exact (reflect?_of_isSettled o hd).trans (reflect?_of_isSettled o' hd).symm
  have htail : ∀ d ∈ c :: wordTail o' cs, IsSettled d := fun d hd =>
    h d ((List.takeWhile_prefix _).sublist.cons_cons c |>.subset hd)
  have hrun : cs.takeWhile (fun d => !isBoundary o d) = cs.takeWhile fun d => !isBoundary o' d :=
    takeWhile_congr fun d hd => by rw [isBoundary_of_isSettled o o' (hcs d hd)]
  simp only [piece, symbol?_of_isSettled o o' hc, quote?_of_isSettled o o' hc, hhead, hrun,
    wordTail_of_isSettled o o' hcs, wordValue_of_isSettled _ htail]

theorem pieces_of_isSettled (pos : Nat) (cs : List Char) (h : ∀ d ∈ cs, IsSettled d) :
    pieces o pos cs = pieces o' pos cs := by
  fun_induction pieces o pos cs with
  | case1 => rw [pieces]
  | case2 pos c cs p ih =>
    have hpiece : p = piece o' pos c cs := piece_of_isSettled o o' h pos
    rw [pieces, ← hpiece,
      ih fun d hd => h d (List.mem_cons_of_mem c (List.mem_of_mem_drop hd))]

end Lexer

/-- A text of settled characters. -/
def IsSettledText (text : String) : Prop := ∀ c ∈ text.toList, IsSettled c

instance : DecidablePred IsSettledText := fun text => List.decidableBAll IsSettled text.toList

/-- **A settled text is cut alike** under all options. -/
theorem lex_of_isSettled {text : String} (h : IsSettledText text) (o o' : LexicalOptions) :
    lex o text = lex o' text := by
  rw [lex, lex, Lexer.pieces_of_isSettled o o' 0 text.toList h]

namespace IsSettledText

variable {s t : String}

theorem append (hs : IsSettledText s) (ht : IsSettledText t) : IsSettledText (s ++ t) := by
  intro c hc
  rw [String.toList_append, List.mem_append] at hc
  exact hc.elim (hs c) (ht c)

theorem ite {p : Prop} [Decidable p] (hs : IsSettledText s) (ht : IsSettledText t) :
    IsSettledText (if p then s else t) := by
  split
  · exact hs
  · exact ht

theorem intercalate (hs : IsSettledText s) : ∀ {ts : List String}, (∀ t ∈ ts, IsSettledText t) →
    IsSettledText (s.intercalate ts)
  | [], _ => fun c hc => by cases hc
  | [t], h => by
    rw [String.intercalate_singleton]
    exact h t List.mem_cons_self
  | t :: u :: ts, h => by
    obtain ⟨ht, hts⟩ := List.forall_mem_cons.mp h
    rw [String.intercalate_cons_cons]
    exact (ht.append hs).append (intercalate hs hts)

/-- A backslash and the letter behind it are settled. -/
theorem quoted {quote : Char} (hquote : IsSettled quote) (h : IsSettledText t) :
    IsSettledText (quoted quote t) := by
  have hescapes : ∀ e ∈ escapes, IsSettled e.1 := by decide
  intro c hc
  rw [PixQuery.quoted, String.toList_ofList, List.cons_append, List.mem_cons, List.mem_append,
    List.mem_flatMap, List.mem_singleton] at hc
  rcases hc with rfl | ⟨d, hd, hc⟩ | rfl
  · exact hquote
  · unfold quotedChar at hc
    split at hc
    · rename_i letter hletter
      rcases List.mem_cons.mp hc with rfl | hc
      · decide
      · obtain rfl := List.mem_singleton.mp hc
        unfold escapeLetter? at hletter
        split at hletter
        · obtain ⟨e, he, rfl⟩ := Option.map_eq_some_iff.mp hletter
          exact hescapes e (List.mem_of_find?_eq_some he)
        · cases hletter
    · obtain rfl := List.mem_singleton.mp hc
      exact h c hd
  · exact hquote

theorem quotedIfNeeded {quote : Char} (hquote : IsSettled quote) (h : IsSettledText t) :
    IsSettledText (quotedIfNeeded quote t) := by
  unfold PixQuery.quotedIfNeeded
  split
  · exact h
  · exact h.quoted hquote

end IsSettledText

end PixQuery
