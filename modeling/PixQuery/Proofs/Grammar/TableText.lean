import PixQuery.Grammar.TableText
import PixQuery.Proofs.Grammar.Soundness
import PixQuery.Proofs.Value.Literals

/-!
# Tables are read back from their texts

The text of a table holds only words with spaces between them: counts, names and cells. The count in
the first line parts the names of the terminals from the others, and the cells of a state are told
apart by their places, so names may look like numbers or cells. Numbers are read up to the greatest
word of 64 bits. A table that was read keeps to that, and so does one that was built of a grammar
whose text and states can be counted with such a word.

Results:
* `ofText_text`: a table of words in rows of the right width is read back from its text.
* `isTabular_of_ofText`, `isTabular_of_buildTable`: tables that were read or built are such tables.
* `ofText_text_lossless`: so both are read back.
-/

namespace PixQuery

/-! ## Words in a table -/

namespace Text

theorem isBlank_of_isDigit {c : Char} (h : c.isDigit = true) : isBlank c = false := by
  have hrange := toNat_of_isDigit h
  rw [isBlank, ← Bool.not_eq_true, List.contains_iff_mem]
  simp only [blanks, List.mem_cons, List.not_mem_nil, or_false]
  omega

/-- A word in front of which a character stands that is not blank. -/
theorem IsWord.cons {c : Char} {cs : List Char} (hc : isBlank c = false)
    (h : ∀ c ∈ cs, isBlank c = false) : IsWord (c :: cs) :=
  ⟨List.cons_ne_nil _ _, List.forall_mem_cons.mpr ⟨hc, h⟩⟩

theorem isBlank_of_mem_toString {n : Nat} {c : Char} (h : c ∈ (toString n).toList) :
    isBlank c = false := isBlank_of_isDigit (isDigit_of_mem_toString h)

theorem isWord_toString (n : Nat) : IsWord (toString n).toList :=
  ⟨by rw [toList_toString_nat]; exact Nat.toDigits_ne_nil, fun _ => isBlank_of_mem_toString⟩

/-- Words with spaces between them. -/
theorem toList_intercalate_space (w : String) (ws : List String) :
    (" ".intercalate (w :: ws)).toList =
      w.toList ++ (ws.map String.toList).flatMap fun v => ' ' :: v := by
  induction ws generalizing w with
  | nil => simp
  | cons v ws ih =>
    rw [String.intercalate_cons_cons, String.toList_append, ih]
    simp

end Text

namespace Table

open Text (IsWord)

/-! ## Numbers and cells -/

theorem number?_toString {n : Nat} (h : Word.holdsNat 64 n = true) :
    number? (toString n).toList = some n := by
  have hplus : ∀ ds, (toString n).toList ≠ '+' :: ds := fun ds heq =>
    absurd (Text.isDigit_of_mem_toString (heq ▸ List.mem_cons_self)) (by decide)
  unfold number? Text.unsigned?
  split
  · rename_i ds hds
    exact absurd hds (hplus ds)
  · simp only [Text.toList_toString_nat, Text.natural?_toDigits, Option.bind_some, if_pos h]

theorem holdsNat_of_number? {cs : List Char} {n : Nat} (h : number? cs = some n) :
    Word.holdsNat 64 n = true := by
  obtain ⟨m, _, hm⟩ := Option.bind_eq_some_iff.mp h
  split at hm
  · rename_i hholds
    exact Option.some.inj hm ▸ hholds
  · cases hm

/-- A way to write the cells that are not empty, and to read all cells. Those that are read, which
are those that meet `P`, are read back. -/
structure IsLegible {α : Type} (P : α → Prop) (write : α → String)
    (read : List Char → Option (Option α)) : Prop where
  isWord : ∀ a, IsWord (write a).toList
  read_blank : read ['_'] = some none
  read_write : ∀ a, P a → read (write a).toList = some (some a)
  of_read : ∀ cs a, read cs = some (some a) → P a

/-- The number in an action is a word of 64 bits. -/
def IsInWord : Action → Prop
  | .shift n => Word.holdsNat 64 n = true
  | .reduce n => Word.holdsNat 64 n = true
  | .accept => True

theorem isLegible_goto :
    IsLegible (fun n : Nat => Word.holdsNat 64 n = true) toString readGoto? where
  isWord := Text.isWord_toString
  read_blank := rfl
  read_write n hn := by
    have hne : (toString n).toList ≠ ['_'] := fun heq =>
      absurd (Text.isDigit_of_mem_toString (heq ▸ List.mem_cons_self)) (by decide)
    rw [readGoto?, if_neg hne, number?_toString hn, Option.map_some]
  of_read cs n h := by
    unfold readGoto? at h
    split at h
    · cases h
    · obtain ⟨m, hm, hmn⟩ := Option.map_eq_some_iff.mp h
      exact Option.some.inj hmn ▸ holdsNat_of_number? hm

theorem toList_text_shift (n : Nat) :
    (Action.shift n).text.toList = 's' :: (toString n).toList := by
  rw [Action.text, String.toList_append]
  rfl

theorem toList_text_reduce (n : Nat) :
    (Action.reduce n).text.toList = 'r' :: (toString n).toList := by
  rw [Action.text, String.toList_append]
  rfl

theorem isLegible_action : IsLegible IsInWord Action.text readAction? where
  isWord a := by
    cases a with
    | shift n =>
      rw [toList_text_shift]
      exact .cons (by decide) fun _ => Text.isBlank_of_mem_toString
    | reduce n =>
      rw [toList_text_reduce]
      exact .cons (by decide) fun _ => Text.isBlank_of_mem_toString
    | accept => decide
  read_blank := rfl
  read_write a ha := by
    cases a with
    | shift n =>
      rw [toList_text_shift, readAction?, if_neg (by simp), if_neg (by simp)]
      simp only [number?_toString ha, Option.map_some]
    | reduce n =>
      rw [toList_text_reduce, readAction?, if_neg (by simp), if_neg (by simp)]
      simp only [number?_toString ha, Option.map_some]
    | accept => rfl
  of_read cs a h := by
    unfold readAction? at h
    split at h
    · cases h
    · split at h
      · cases h
        trivial
      · split at h
        · obtain ⟨m, hm, hmn⟩ := Option.map_eq_some_iff.mp h
          obtain rfl := Option.some.inj hmn
          exact holdsNat_of_number? hm
        · obtain ⟨m, hm, hmn⟩ := Option.map_eq_some_iff.mp h
          obtain rfl := Option.some.inj hmn
          exact holdsNat_of_number? hm
        · cases h

section Cells

variable {α : Type} {P : α → Prop} {write : α → String} {read : List Char → Option (Option α)}

theorem toList_cellText_none : (cellText write none).toList = ['_'] := by simp [cellText]

theorem IsLegible.isWord_cellText (h : IsLegible P write read) (a : Option α) :
    IsWord (cellText write a).toList := by
  cases a with
  | none =>
    rw [toList_cellText_none]
    decide
  | some a => exact h.isWord a

/-- **Cells are read back.** -/
theorem IsLegible.readCells_cellText (h : IsLegible P write read) (row : Nat) :
    ∀ {cells : List (Option α)}, (∀ a, some a ∈ cells → P a) →
      readCells row read ((cells.map (cellText write)).map String.toList) = .ok cells
  | [], _ => rfl
  | cell :: cells, hcells => by
    have hread : read (cellText write cell).toList = some cell := by
      cases cell with
      | none => rw [toList_cellText_none, h.read_blank]
      | some a => exact h.read_write a (hcells a List.mem_cons_self)
    have hrest := h.readCells_cellText row fun a ha => hcells a (List.mem_cons_of_mem _ ha)
    rw [List.map_cons, List.map_cons, readCells, hread]
    simp only [hrest]
    rfl

/-- As many cells are read as there are words, and they are those that are read back. -/
theorem IsLegible.of_readCells (h : IsLegible P write read) {row : Nat} :
    ∀ {words : List (List Char)} {cells : List (Option α)},
      readCells row read words = .ok cells →
        cells.length = words.length ∧ ∀ a, some a ∈ cells → P a
  | [], cells, hread => by
    obtain rfl := Except.ok.inj hread
    exact ⟨rfl, fun a ha => absurd ha List.not_mem_nil⟩
  | word :: words, cells, hread => by
    unfold readCells at hread
    split at hread
    · cases hread
    · rename_i cell hcell
      cases hrest : readCells row read words with
      | error e => rw [hrest] at hread; cases hread
      | ok rest =>
        rw [hrest] at hread
        obtain rfl := Except.ok.inj hread
        obtain ⟨hlength, hrest⟩ := h.of_readCells hrest
        refine ⟨congrArg (· + 1) hlength, fun a ha => ?_⟩
        rcases List.mem_cons.mp ha with rfl | ha
        · exact h.of_read word a hcell
        · exact hrest a ha

end Cells

/-! ## Rows -/

/-- The cells of a row have the width of the header, and hold words. -/
structure IsRow (m n : Nat) (row : List (Option Action) × List (Option Nat)) : Prop where
  actions : row.1.length = m ∧ ∀ a, some a ∈ row.1 → IsInWord a
  gotos : row.2.length = n ∧ ∀ k, some k ∈ row.2 → Word.holdsNat 64 k = true

/-- The words on the line of a state, behind its number. -/
def cellTexts (row : List (Option Action) × List (Option Nat)) : List String :=
  row.1.map (cellText Action.text) ++ row.2.map (cellText toString)

theorem isWord_cellTexts {row : List (Option Action) × List (Option Nat)} :
    ∀ w ∈ (cellTexts row).map String.toList, IsWord w := by
  intro w hw
  obtain ⟨s, hs, rfl⟩ := List.mem_map.mp hw
  rcases List.mem_append.mp hs with hs | hs
  · obtain ⟨a, _, rfl⟩ := List.mem_map.mp hs
    exact isLegible_action.isWord_cellText a
  · obtain ⟨k, _, rfl⟩ := List.mem_map.mp hs
    exact isLegible_goto.isWord_cellText k

theorem toList_rowText (state : Nat) (row : List (Option Action) × List (Option Nat)) :
    (rowText state row.1 row.2).toList =
      (toString state).toList ++ ((cellTexts row).map String.toList).flatMap fun w => ' ' :: w := by
  rw [rowText, List.cons_append, Text.toList_intercalate_space, cellTexts]

/-- **A row is read back**, whatever number stands in front of it. -/
theorem readRow_rowText {m n : Nat} {row : List (Option Action) × List (Option Nat)}
    (h : IsRow m n row) (number state : Nat) :
    readRow number m n (rowText state row.1 row.2).toList = .ok row := by
  have hm : ((row.1.map (cellText Action.text)).map String.toList).length = m := by
    simpa using h.actions.1
  have hn : ((row.2.map (cellText toString)).map String.toList).length = n := by
    simpa using h.gotos.1
  have hactions := isLegible_action.readCells_cellText number h.actions.2
  have hgotos := isLegible_goto.readCells_cellText number h.gotos.2
  have hwords := Text.words_spaced (Text.isWord_toString state) (@isWord_cellTexts row)
  rw [cellTexts, List.map_append] at hwords
  rw [readRow, toList_rowText, cellTexts, List.map_append, hwords]
  generalize (row.1.map (cellText Action.text)).map String.toList = as at *
  generalize (row.2.map (cellText toString)).map String.toList = ks at *
  have hlength : ((toString state).toList :: (as ++ ks)).length = 1 + m + n := by
    simp only [List.length_cons, List.length_append]
    omega
  have htake : (((toString state).toList :: (as ++ ks)).drop 1).take m = as := by
    rw [List.drop_one, List.tail_cons, ← hm, List.take_left]
  have hdrop : ((toString state).toList :: (as ++ ks)).drop (1 + m) = ks := by
    rw [Nat.add_comm, List.drop_succ_cons, ← hm, List.drop_left]
  simp only [hlength, htake, hdrop, hactions, hgotos, ne_eq, not_true_eq_false, if_false]
  rfl

theorem isRow_of_readRow {number m n : Nat} {line : List Char}
    {row : List (Option Action) × List (Option Nat)} (h : readRow number m n line = .ok row) :
    IsRow m n row := by
  unfold readRow at h
  simp only at h
  split at h
  · cases h
  · rename_i hlength
    simp only [ne_eq, Decidable.not_not] at hlength
    generalize Text.words line = cells at h hlength
    cases hactions : readCells number readAction? ((cells.drop 1).take m) with
    | error e => rw [hactions] at h; cases h
    | ok actions =>
      cases hgotos : readCells number readGoto? (cells.drop (1 + m)) with
      | error e => rw [hactions, hgotos] at h; cases h
      | ok gotos =>
        rw [hactions, hgotos] at h
        obtain rfl := Except.ok.inj h
        obtain ⟨hm, hactions⟩ := isLegible_action.of_readCells hactions
        obtain ⟨hn, hgotos⟩ := isLegible_goto.of_readCells hgotos
        rw [List.length_take, List.length_drop] at hm
        rw [List.length_drop] at hn
        exact ⟨⟨hm.trans (by omega), hactions⟩, ⟨hn.trans (by omega), hgotos⟩⟩

/-- Rows are read back. -/
theorem readRows_rowText {m n : Nat} : ∀ (rows : List (List (Option Action) × List (Option Nat)))
    (number state : Nat), (∀ row ∈ rows, IsRow m n row) →
      readRows m n number
        ((rows.zipIdx state).map fun r => (rowText r.2 r.1.1 r.1.2).toList) = .ok rows
  | [], _, _, _ => rfl
  | row :: rows, number, state, h => by
    obtain ⟨hrow, hrows⟩ := List.forall_mem_cons.mp h
    have hrest := readRows_rowText rows (number + 1) (state + 1) hrows
    rw [List.zipIdx_cons, List.map_cons, readRows, readRow_rowText hrow]
    simp only [hrest]
    rfl

theorem isRow_of_readRows {m n : Nat} : ∀ {lines : List (List Char)} {number : Nat}
    {rows : List (List (Option Action) × List (Option Nat))},
    readRows m n number lines = .ok rows → ∀ row ∈ rows, IsRow m n row
  | [], _, rows, h => by
    obtain rfl := Except.ok.inj h
    exact fun row hrow => absurd hrow List.not_mem_nil
  | line :: lines, number, rows, h => by
    simp only [readRows] at h
    cases hrow : readRow number m n line with
    | error e => rw [hrow] at h; cases h
    | ok row =>
      cases hrest : readRows m n (number + 1) lines with
      | error e => rw [hrow, hrest] at h; cases h
      | ok rest =>
        rw [hrow, hrest] at h
        obtain rfl := Except.ok.inj h
        exact List.forall_mem_cons.mpr ⟨isRow_of_readRow hrow, isRow_of_readRows hrest⟩

/-! ## Tables -/

/-- **A table that can be read back**: its names are words, the count of its terminals is a word of
64 bits, and each state has a row of actions and one of gotos, of the width of the header. -/
structure IsTabular (t : Table) : Prop where
  names : ∀ name ∈ t.terminals ++ t.nonterminals, IsWord name.toList
  count : Word.holdsNat 64 t.terminals.length = true
  states : t.actions.length = t.gotos.length
  rows : ∀ row ∈ t.actions.zip t.gotos, IsRow t.terminals.length t.nonterminals.length row

variable {t : Table}

/-- The names of a table as they are written in its first line. -/
def headerNames (t : Table) : List (List Char) := (t.terminals ++ t.nonterminals).map String.toList

theorem toList_headerText (t : Table) : t.headerText.toList =
    (toString t.terminals.length).toList ++ t.headerNames.flatMap fun w => ' ' :: w := by
  rw [headerText, List.cons_append, Text.toList_intercalate_space, headerNames]

theorem toList_text (t : Table) : t.text.toList =
    ((t.headerText :: t.rowTexts).map String.toList).flatMap fun l => l ++ ['\n'] := by
  rw [text, String.toList_join, List.flatMap_map, List.flatMap_map]
  simp only [String.toList_append]
  rfl

/-- Every line of a table is a number and other words behind it. -/
theorem IsTabular.exists_spaced (h : t.IsTabular) {l : List Char}
    (hl : l ∈ (t.headerText :: t.rowTexts).map String.toList) :
    ∃ (n : Nat) (ws : List (List Char)), (∀ w ∈ ws, IsWord w) ∧
      l = (toString n).toList ++ ws.flatMap fun w => ' ' :: w := by
  obtain ⟨s, hs, rfl⟩ := List.mem_map.mp hl
  rcases List.mem_cons.mp hs with rfl | hs
  · refine ⟨_, _, fun w hw => ?_, t.toList_headerText⟩
    obtain ⟨name, hname, rfl⟩ := List.mem_map.mp hw
    exact h.names name hname
  · obtain ⟨r, _, rfl⟩ := List.mem_map.mp hs
    exact ⟨_, _, isWord_cellTexts, toList_rowText r.2 r.1⟩

/-- No line of a table is left out. -/
theorem IsTabular.lines_text (h : t.IsTabular) :
    (Text.lines t.text.toList).filter (fun l => !(Text.trim l).isEmpty) =
      (t.headerText :: t.rowTexts).map String.toList := by
  have hspaced := fun l => @IsTabular.exists_spaced t h l
  rw [toList_text, Text.lines_flatMap fun l hl => ?_, List.filter_eq_self.mpr fun l hl => ?_]
  · obtain ⟨n, ws, _, rfl⟩ := hspaced l hl
    simpa [List.isEmpty_iff] using Text.trim_spaced_ne_nil (Text.isWord_toString n) _
  · obtain ⟨n, ws, hws, rfl⟩ := hspaced l hl
    exact Text.not_mem_spaced (List.forall_mem_cons.mpr ⟨Text.isWord_toString n, hws⟩)

/-- **A table is read back from its text.** -/
theorem ofText_text (h : t.IsTabular) : ofText t.text = .ok t := by
  have hnames : ∀ w ∈ t.headerNames, IsWord w := fun w hw => by
    obtain ⟨name, hname, rfl⟩ := List.mem_map.mp hw
    exact h.names name hname
  have hheader := Text.words_spaced (Text.isWord_toString t.terminals.length) hnames
  have hrows := readRows_rowText (t.actions.zip t.gotos) 0 0 h.rows
  have hlength : t.headerNames.length = t.terminals.length + t.nonterminals.length := by
    simp [headerNames]
  have hmap : t.headerNames.map String.ofList = t.terminals ++ t.nonterminals := by
    simp [headerNames, Function.comp_def]
  rw [ofText, h.lines_text, List.map_cons, toList_headerText, rowTexts, List.map_map]
  simp only [hheader, number?_toString h.count, hlength, hmap, Nat.add_sub_cancel_left,
    List.take_left, List.drop_left, Function.comp_def, hrows]
  rw [if_neg (by omega)]
  show Except.ok (Table.mk t.terminals t.nonterminals ((t.actions.zip t.gotos).map Prod.fst)
    ((t.actions.zip t.gotos).map Prod.snd)) = _
  rw [List.map_fst_zip h.states.le, List.map_snd_zip h.states.ge]

/-! ## Tables that were read -/

/-- What a table was read from: a count, at least as many names, and rows of their width. -/
theorem exists_of_ofText {s : String} (h : ofText s = .ok t) :
    ∃ header count names m lines rows, Text.words header = count :: names ∧
      number? count = some m ∧ m ≤ names.length ∧
      readRows m (names.length - m) 0 lines = .ok rows ∧
      t = ⟨(names.map String.ofList).take m, (names.map String.ofList).drop m,
        rows.map Prod.fst, rows.map Prod.snd⟩ := by
  unfold ofText at h
  split at h
  · cases h
  · rename_i header lines _
    split at h
    · cases h
    · rename_i count names hheader
      split at h
      · cases h
      · rename_i m hm
        split at h
        · cases h
        · rename_i hle
          cases hrows : readRows m (names.length - m) 0 lines with
          | error e => rw [hrows] at h; cases h
          | ok rows =>
            rw [hrows] at h
            exact ⟨header, count, names, m, lines, rows, hheader, hm, Nat.le_of_not_lt hle, hrows,
              (Except.ok.inj h).symm⟩

/-- **A table that was read** can be read back. -/
theorem isTabular_of_ofText {s : String} (h : ofText s = .ok t) : t.IsTabular := by
  obtain ⟨header, count, names, m, lines, rows, hheader, hm, hle, hrows, rfl⟩ := exists_of_ofText h
  have hterminals : ((names.map String.ofList).take m).length = m := by
    rw [List.length_take, List.length_map, Nat.min_eq_left hle]
  refine ⟨fun name hname => ?_, ?_, by simp, ?_⟩
  · rw [List.take_append_drop] at hname
    obtain ⟨w, hw, rfl⟩ := List.mem_map.mp hname
    rw [String.toList_ofList]
    exact Text.isWord_of_mem_words (hheader ▸ List.mem_cons_of_mem _ hw)
  · simp only [hterminals]
    exact holdsNat_of_number? hm
  · simp only [hterminals, List.length_drop, List.length_map, List.zip_map', List.map_id']
    exact isRow_of_readRows hrows

/-! ## Tables that were built -/

section Built

open Grammar

variable {ps : List Production}

/-- There are no more terminals than symbols in the productions, and the end. -/
theorem length_terminals_le (ps : List Production) :
    (Grammar.terminals ps).length ≤ (ps.map fun p => p.body.length).sum + 1 := by
  have hsub : (ps.flatMap fun p => p.body.filterMap Sym.terminal?).eraseDups ⊆
      ps.flatMap fun p => p.body.filterMap Sym.terminal? := fun _ => List.mem_eraseDups.mp
  have hle := (List.subperm_of_subset (nodup_eraseDups _) hsub).length_le
  have hsum : (ps.flatMap fun p => p.body.filterMap Sym.terminal?).length ≤
      (ps.map fun p => p.body.length).sum := by
    rw [List.length_flatMap]
    exact List.sum_le_sum fun p _ => List.length_filterMap_le _ _
  simp only [Grammar.terminals, List.length_append, List.length_singleton]
  omega

/-- The numbers in the actions that a state performs are those of states and productions. -/
theorem isInWord_of_performs {k : Nat} {u : String} {a : Action} (h : Performs ps k u a)
    (hstates : (automaton ps).states.length ≤ Word.size 64) (hrules : ps.length < Word.size 64) :
    IsInWord a := by
  cases h with
  | shift hl =>
    obtain ⟨set, hset⟩ := exists_stateAt_of_leads hl
    have htarget := stateAt_of_leads hset hl
    exact decide_eq_true ((List.getElem?_eq_some_iff.mp htarget).1.trans_le hstates)
  | reduce _ hp _ _ => exact decide_eq_true ((le_length_of_numbered hp).trans_lt hrules)
  | accept => trivial

theorem length_cells (ps : List Production) :
    (cells ps (automaton ps)).length = (automaton ps).states.length := by
  rw [cells, List.length_map, List.length_zip, (explored_automaton ps).2, Nat.min_self]

/-- The rows of a table that was built. -/
theorem isRow_of_built (hbuilt : Built ps t)
    (hstates : (automaton ps).states.length ≤ Word.size 64) (hrules : ps.length < Word.size 64) :
    ∀ row ∈ t.actions.zip t.gotos, IsRow t.terminals.length t.nonterminals.length row := by
  intro row hrow
  obtain ⟨hexplored, hedges⟩ := explored_automaton ps
  obtain ⟨k, hk⟩ := List.mem_iff_getElem?.mp hrow
  obtain ⟨hactions, hgotos⟩ := List.getElem?_zip_eq_some.mp hk
  rw [hbuilt.gotos, List.getElem?_map, Option.map_eq_some_iff] at hgotos
  obtain ⟨out, hout, hgotos⟩ := hgotos
  have hlt : k < (automaton ps).states.length := hedges ▸ (List.getElem?_eq_some_iff.mp hout).1
  have hset : stateAt? ps k = some (automaton ps).states[k] := List.getElem?_eq_getElem hlt
  rw [hbuilt.actions, List.getElem?_map, cells_getElem? hset hout, Option.map_some,
    Option.some.injEq] at hactions
  refine ⟨⟨?_, fun a ha => ?_⟩, ?_, fun n hn => ?_⟩
  · rw [← hactions, hbuilt.terminals, List.length_map, List.length_map]
  · rw [← hactions, List.map_map] at ha
    obtain ⟨u, _, hhead⟩ := List.mem_map.mp ha
    have hperforms := (mem_cellAt hset hout).mp (List.mem_of_head? hhead)
    exact isInWord_of_performs hperforms hstates hrules
  · rw [← hgotos, hbuilt.nonterminals, gotoRow, List.length_map]
  · rw [← hgotos, gotoRow] at hn
    obtain ⟨a, _, hfind⟩ := List.mem_map.mp hn
    obtain ⟨e, he, rfl⟩ := Option.map_eq_some_iff.mp hfind
    have htarget := hexplored.targets k _ out hset hout e (List.mem_of_find?_eq_some he)
    exact decide_eq_true ((List.getElem?_eq_some_iff.mp htarget).1.trans_le hstates)

/-- **A table that was built can be read back** when its states can be counted, and the characters
of the definition too. -/
theorem isTabular_of_buildTable {text : String} (hread : readDefinition text = .ok ps)
    (hbuild : buildTable ps = .ok t) (htext : text.length < Word.size 64)
    (hcount : t.stateCount ≤ Word.size 64) : t.IsTabular := by
  have hbuilt := built_of_buildTable hbuild
  have hsize := length_of_readDefinition hread
  have hnonempty := List.length_pos_iff.mpr (wellDefined_of_readDefinition hread).nonempty
  rw [String.length_toList] at hsize
  have hstates : (automaton ps).states.length ≤ Word.size 64 := by
    rw [stateCount, hbuilt.actions, List.length_map, length_cells] at hcount
    exact hcount
  refine ⟨fun name hname => ?_, ?_, ?_, isRow_of_built hbuilt hstates (by omega)⟩
  · rw [hbuilt.terminals, hbuilt.nonterminals] at hname
    rcases List.mem_append.mp hname with hname | hname
    · rcases mem_terminals.mp hname with ⟨p, hp, hbody⟩ | rfl
      · exact (isWord_of_readDefinition hread hp).2 name hbody
      · decide
    · obtain ⟨p, hp, rfl⟩ := mem_nonterminals.mp hname
      exact (isWord_of_readDefinition hread hp).1
  · have hle := length_terminals_le ps
    rw [hbuilt.terminals]
    exact decide_eq_true (by omega)
  · rw [hbuilt.actions, hbuilt.gotos, List.length_map, List.length_map, length_cells,
      (explored_automaton ps).2]

end Built

/-! ## No table is lost -/

/-- **The text of a table loses nothing.** A table that was built of the productions of a definition
is read back from its text, as long as a word of 64 bits can count the characters of the definition
and the states. And a table that was read from any text is read back from its own. -/
theorem ofText_text_lossless :
    (∀ {text : String} {ps : List Grammar.Production} {t : Table},
      Grammar.readDefinition text = .ok ps → Grammar.buildTable ps = .ok t →
      text.length < Word.size 64 → t.stateCount ≤ Word.size 64 → ofText t.text = .ok t) ∧
    ∀ {s : String} {t : Table}, ofText s = .ok t → ofText t.text = .ok t :=
  ⟨fun hread hbuild htext hcount =>
    ofText_text (isTabular_of_buildTable hread hbuild htext hcount),
    fun h => ofText_text (isTabular_of_ofText h)⟩

/-- A table the columns of which have odd names, with white space that no table is written with. -/
def oddText : String := "\r\n2\t7 _   acc s1\r\n\n 9 s12 r+0 _ 3\n_ _ acc\t_ 00"

/-- The table in that text. -/
def odd : Table where
  terminals := ["7", "_"]
  nonterminals := ["acc", "s1"]
  actions := [[some (.shift 12), some (.reduce 0)], [none, some .accept]]
  gotos := [[none, some 3], [none, some 0]]

theorem ofText_text_lossless_odd :
    (ofText Grammar.sums.table.text = .ok Grammar.sums.table) ∧
      ofText oddText = .ok odd ∧ odd.text = "2 7 _ acc s1\n0 s12 r0 _ 3\n1 _ acc _ 0\n" ∧
      ofText odd.text = .ok odd := by
  have hread : Grammar.readDefinition Grammar.sumText = .ok Grammar.sums.productions := by decide
  have hbuild : Grammar.buildTable Grammar.sums.productions = .ok Grammar.sums.table := by decide
  have hodd : ofText oddText = .ok odd := by decide
  exact ⟨ofText_text_lossless.1 hread hbuild (by decide) (by decide), hodd, by decide,
    ofText_text_lossless.2 hodd⟩

end Table

end PixQuery
