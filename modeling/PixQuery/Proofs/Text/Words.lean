import Mathlib.Algebra.BigOperators.Group.List.Basic
import Mathlib.Algebra.GroupWithZero.Nat
import PixQuery.Text.Blank

/-!
# Words and lines

Words that are written with spaces between them are the words of their text, and lines that are
written with a line feed behind each are its lines. What is read as a word is not empty and holds no
white space, so it can be written again; and no more words and lines are read than there are
characters.

Results:
* `words_spaced`, `lines_flatMap`: words and lines are read back.
* `isWord_of_mem_words`: what is read as a word can be written.
* `length_words_le`, `sum_length_lines_le`: how much is read.
-/

namespace PixQuery.Text

/-! ## Reading back -/

/-- Something, and nowhere white space. -/
def IsWord (cs : List Char) : Prop := cs ≠ [] ∧ ∀ c ∈ cs, isBlank c = false

instance (cs : List Char) : Decidable (IsWord cs) :=
  @instDecidableAnd _ _ inferInstance (List.decidableBAll (fun c => isBlank c = false) cs)

theorem wordsFrom_append {cs : List Char} (h : ∀ c ∈ cs, isBlank c = false)
    (word rest : List Char) :
    wordsFrom word (cs ++ rest) = wordsFrom (cs.reverse ++ word) rest := by
  induction cs generalizing word with
  | nil => rfl
  | cons c cs ih =>
    obtain ⟨hc, hcs⟩ := List.forall_mem_cons.mp h
    rw [List.cons_append, wordsFrom, hc, if_neg Bool.false_ne_true, ih hcs]
    simp

/-- Words behind spaces are the words of a text that begins with another. -/
theorem wordsFrom_spaced {ws : List (List Char)} (h : ∀ w ∈ ws, IsWord w) {word : List Char}
    (hword : word ≠ []) :
    wordsFrom word (ws.flatMap fun w => ' ' :: w) = word.reverse :: ws := by
  induction ws generalizing word with
  | nil => rw [List.flatMap_nil, wordsFrom, if_neg (by simpa using hword)]
  | cons w ws ih =>
    obtain ⟨hw, hws⟩ := List.forall_mem_cons.mp h
    have hspace : isBlank ' ' = true := by decide
    rw [List.flatMap_cons, List.cons_append, wordsFrom, if_pos hspace,
      if_neg (by simpa using hword), wordsFrom_append hw.2, List.append_nil,
      ih hws (by simpa using hw.1), List.reverse_reverse]

/-- Words with spaces between them are the words of the text. -/
theorem words_spaced {w : List Char} {ws : List (List Char)} (hw : IsWord w)
    (hws : ∀ w ∈ ws, IsWord w) : words (w ++ ws.flatMap fun w => ' ' :: w) = w :: ws := by
  rw [words, wordsFrom_append hw.2, List.append_nil, wordsFrom_spaced hws (by simpa using hw.1),
    List.reverse_reverse]

theorem linesFrom_append {l : List Char} (h : '\n' ∉ l) (line rest : List Char) :
    linesFrom line (l ++ rest) = linesFrom (l.reverse ++ line) rest := by
  induction l generalizing line with
  | nil => rfl
  | cons c l ih =>
    obtain ⟨hc, hl⟩ := List.ne_and_not_mem_of_not_mem_cons h
    have hstep : linesFrom line (c :: (l ++ rest)) = linesFrom (c :: line) (l ++ rest) := by
      conv => lhs; unfold linesFrom
      exact if_neg (Ne.symm hc)
    rw [List.cons_append, hstep, ih hl]
    simp

/-- A line without a carriage return ends at a line feed. -/
theorem linesFrom_feed {line : List Char} (h : '\r' ∉ line) (rest : List Char) :
    linesFrom line ('\n' :: rest) = line.reverse :: linesFrom [] rest := by
  conv => lhs; unfold linesFrom
  rw [if_pos rfl]
  split
  · exact absurd List.mem_cons_self h
  · rfl

/-- Lines behind which there is a line feed are the lines of the text. -/
theorem lines_flatMap {ls : List (List Char)} (h : ∀ l ∈ ls, '\n' ∉ l ∧ '\r' ∉ l) :
    lines (ls.flatMap fun l => l ++ ['\n']) = ls := by
  induction ls with
  | nil => rfl
  | cons l ls ih =>
    obtain ⟨⟨hfeed, hreturn⟩, hls⟩ := List.forall_mem_cons.mp h
    have hrest := ih hls
    rw [lines] at hrest
    rw [List.flatMap_cons, List.append_assoc, lines, linesFrom_append hfeed, List.append_nil,
      List.singleton_append, linesFrom_feed (by simpa using hreturn), hrest, List.reverse_reverse]

/-- What begins with a character that is not blank still does when it is trimmed. -/
theorem exists_trim_cons {c : Char} (hc : isBlank c = false) (cs : List Char) :
    ∃ ds, trim (c :: cs) = c :: ds := by
  have hfront : (c :: cs).dropWhile isBlank = c :: cs :=
    List.dropWhile_cons_of_neg (by simp [hc])
  have hback : [c].dropWhile isBlank = [c] := List.dropWhile_cons_of_neg (by simp [hc])
  rw [trim, hfront, List.reverse_cons, List.dropWhile_append, hback]
  split
  · exact ⟨[], rfl⟩
  · exact ⟨_, by rw [List.reverse_append]; rfl⟩

/-- White space between words is a space. -/
theorem eq_space_of_mem_spaced {w : List Char} {ws : List (List Char)} (h : ∀ v ∈ w :: ws, IsWord v)
    {c : Char} (hc : c ∈ w ++ ws.flatMap fun w => ' ' :: w) (hblank : isBlank c = true) :
    c = ' ' := by
  have hnone : ∀ v ∈ w :: ws, c ∉ v := fun v hv hmem => by
    rw [(h v hv).2 c hmem] at hblank
    cases hblank
  rcases List.mem_append.mp hc with hc | hc
  · exact absurd hc (hnone w List.mem_cons_self)
  · obtain ⟨v, hv, hc⟩ := List.mem_flatMap.mp hc
    exact (List.mem_cons.mp hc).resolve_right (hnone v (List.mem_cons_of_mem _ hv))

/-- Words with spaces between them stand on one line. -/
theorem not_mem_spaced {w : List Char} {ws : List (List Char)} (h : ∀ v ∈ w :: ws, IsWord v) :
    '\n' ∉ w ++ ws.flatMap (fun w => ' ' :: w) ∧ '\r' ∉ w ++ ws.flatMap fun w => ' ' :: w :=
  ⟨fun hmem => absurd (eq_space_of_mem_spaced h hmem (by decide)) (by decide),
    fun hmem => absurd (eq_space_of_mem_spaced h hmem (by decide)) (by decide)⟩

/-- A line that begins with a word is not blank. -/
theorem trim_spaced_ne_nil {w : List Char} (hw : IsWord w) (cs : List Char) :
    trim (w ++ cs) ≠ [] := by
  obtain ⟨c, ds, rfl⟩ := List.exists_cons_of_ne_nil hw.1
  obtain ⟨es, hes⟩ := exists_trim_cons (hw.2 c List.mem_cons_self) (ds ++ cs)
  rw [List.cons_append, hes]
  exact List.cons_ne_nil _ _

/-! ## What is read -/

theorem isWord_of_mem_wordsFrom : ∀ {cs word : List Char}, (∀ c ∈ word, isBlank c = false) →
    ∀ w ∈ wordsFrom word cs, IsWord w
  | [], word, hword, w, hw => by
    rw [wordsFrom] at hw
    split at hw
    · cases hw
    · rename_i hne
      rw [List.mem_singleton.mp hw]
      exact ⟨by simpa using hne, fun c hc => hword c (List.mem_reverse.mp hc)⟩
  | c :: cs, word, hword, w, hw => by
    have hnil : ∀ c ∈ ([] : List Char), isBlank c = false := fun c hc => absurd hc List.not_mem_nil
    rw [wordsFrom] at hw
    split at hw
    · split at hw
      · exact isWord_of_mem_wordsFrom hnil w hw
      · rename_i hne
        rcases List.mem_cons.mp hw with rfl | hw
        · exact ⟨by simpa using hne, fun c hc => hword c (List.mem_reverse.mp hc)⟩
        · exact isWord_of_mem_wordsFrom hnil w hw
    · rename_i hc
      exact isWord_of_mem_wordsFrom
        (List.forall_mem_cons.mpr ⟨Bool.not_eq_true _ ▸ hc, hword⟩) w hw

/-- **What is read as a word** is one. -/
theorem isWord_of_mem_words {cs w : List Char} (h : w ∈ words cs) : IsWord w :=
  isWord_of_mem_wordsFrom (fun _ hc => absurd hc List.not_mem_nil) w h

theorem length_wordsFrom_le : ∀ (cs word : List Char),
    (wordsFrom word cs).length ≤ cs.length + if word.isEmpty then 0 else 1
  | [], word => by
    rw [wordsFrom]
    split <;> simp
  | c :: cs, word => by
    have hblank := length_wordsFrom_le cs []
    have hnext := length_wordsFrom_le cs (c :: word)
    simp only [List.isEmpty_nil, List.isEmpty_cons, if_true, Bool.false_eq_true, if_false]
      at hblank hnext
    rw [wordsFrom]
    split <;> split <;> simp only [List.length_cons] <;> omega

/-- There are no more words than characters. -/
theorem length_words_le (cs : List Char) : (words cs).length ≤ cs.length :=
  length_wordsFrom_le cs []

theorem sum_length_linesFrom_le : ∀ (cs line : List Char),
    ((linesFrom line cs).map List.length).sum ≤ line.length + cs.length
  | [], line => by
    unfold linesFrom
    split <;> simp
  | c :: cs, line => by
    have hfeed := sum_length_linesFrom_le cs []
    have hnext := sum_length_linesFrom_le cs (c :: line)
    simp only [List.length_cons, List.length_nil] at hfeed hnext ⊢
    unfold linesFrom
    split
    · rw [List.map_cons, List.sum_cons]
      split <;> simp only [List.length_reverse, List.length_cons] <;> omega
    · omega

/-- The lines of a text are no longer than the text. -/
theorem sum_length_lines_le (cs : List Char) : ((lines cs).map List.length).sum ≤ cs.length := by
  have hle := sum_length_linesFrom_le cs []
  rwa [List.length_nil, Nat.zero_add] at hle

end PixQuery.Text
