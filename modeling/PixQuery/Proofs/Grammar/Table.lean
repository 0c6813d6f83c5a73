import PixQuery.Grammar.Basic
import PixQuery.Proofs.Grammar.Automaton
import PixQuery.Proofs.Grammar.Lookahead

/-!
# What a built table says

A table is a list of rows with columns that are looked up by name. Here its cells are read back:
a grammar that was built has an action for a state and a terminal exactly when the automaton and
the follow pairs give a reason for it, and then just one.

Results:
* `action_eq_some_iff`: the action of a cell is what the state `Performs` before the terminal.
* `goto_eq_some_iff`: a table goes on behind a nonterminal along the edge of the automaton.
-/

namespace PixQuery

/-! ## Cells -/

namespace Table

theorem column?_eq_some {names : List String} {name : String} {j : Nat}
    (h : column? names name = some j) : names[j]? = some name := by
  obtain ⟨i, hi, rfl⟩ := Option.map_eq_some_iff.mp h
  obtain ⟨hlt, hname, _⟩ := List.idxOf?_eq_some_iff.mp hi
  rw [List.length_reverse] at hlt
  rw [List.getElem_reverse] at hname
  rw [List.getElem?_eq_some_iff]
  exact ⟨_, hname⟩

theorem exists_column {names : List String} {name : String} (h : name ∈ names) :
    ∃ j, column? names name = some j := by
  cases hi : names.reverse.idxOf? name with
  | none => exact absurd (List.mem_reverse.mpr h) (List.idxOf?_eq_none_iff.mp hi)
  | some i => exact ⟨names.length - 1 - i, by simp [column?, hi]⟩

/-- The cell of a row that was computed from the names of the columns. -/
theorem cell?_of_row {α : Type} {names : List String} {rows : List (List (Option α))} {k : Nat}
    {f : String → Option α} {name : String} (hrow : rows[k]? = some (names.map f))
    (hname : name ∈ names) : cell? names rows k name = f name := by
  obtain ⟨j, hj⟩ := exists_column hname
  have hget := column?_eq_some hj
  simp [cell?, hj, hrow, hget]

theorem cell?_eq_some {α : Type} {names : List String} {rows : List (List (Option α))} {k : Nat}
    {name : String} {a : α} (h : cell? names rows k name = some a) :
    name ∈ names ∧ ∃ row, rows[k]? = some row := by
  simp only [cell?, Option.bind_eq_bind, Option.bind_eq_some_iff] at h
  obtain ⟨j, hj, row, hrow, _⟩ := h
  exact ⟨List.mem_of_getElem? (column?_eq_some hj), row, hrow⟩

end Table

namespace Grammar

variable {ps : List Production} {g : Grammar}

/-! ## Reasons for actions -/

/-- The reasons that a state has for an action before a terminal. -/
inductive Performs (ps : List Production) (k : Nat) (t : String) : Action → Prop
  | shift {n : Nat} (h : Leads ps k (.terminal t) n) : Performs ps k t (.shift n)
  | reduce {set : ItemSet} {n : Nat} {p : Production} (hset : stateAt? ps k = some set)
      (hp : numbered? ps n = some p) (hi : ⟨n, p.body.length⟩ ∈ set)
      (ht : (p.key, t) ∈ followPairs ps) : Performs ps k t (.reduce n)
  | accept {set : ItemSet} (hset : stateAt? ps k = some set) (hi : ⟨0, 1⟩ ∈ set) (ht : t = eof) :
      Performs ps k t .accept

/-- The actions that compete in a state before a terminal. -/
def cellAt (ps : List Production) (set : ItemSet) (out : List Edge) (t : String) : List Action :=
  competing ps (followPairs ps) (set.filter fun i => i.isComplete ps) out t

theorem mem_shifts {out : List Edge} {t : String} {a : Action} :
    a ∈ shifts out t ↔ ∃ n, ⟨.terminal t, n⟩ ∈ out ∧ a = .shift n := by
  simp only [shifts, List.mem_filterMap]
  constructor
  · rintro ⟨⟨x, n⟩, he, h⟩
    split at h
    · rename_i hx
      simp only at hx
      exact ⟨n, hx ▸ he, (Option.some.inj h).symm⟩
    · simp at h
  · rintro ⟨n, he, rfl⟩
    exact ⟨_, he, by simp⟩

/-- A complete item has its dot right behind the body of its production. -/
theorem dot_of_isComplete {i : Item} (hi : i ∈ items ps) (hc : i.isComplete ps = true) :
    i.dot = (bodyOf ps i.production).length := by
  simp only [Item.isComplete, decide_eq_true_eq] at hc
  exact Nat.le_antisymm (mem_items.mp hi).2 hc

theorem completion?_eq_some {k : Nat} {set : ItemSet} {t : String} {i : Item} {a : Action}
    (hset : stateAt? ps k = some set) (hi : i ∈ set) (hc : i.isComplete ps = true)
    (h : completion? ps (followPairs ps) t i = some a) : Performs ps k t a := by
  have hitems := mem_items_of_stateAt hset hi
  have hdot := dot_of_isComplete hitems hc
  obtain ⟨n, d⟩ := i
  unfold completion? at h
  simp only at h hdot
  split at h
  · rename_i h0
    subst h0
    split at h
    · rename_i ht
      obtain rfl := Option.some.inj h
      obtain rfl : d = 1 := hdot
      exact .accept hset hi ht
    · simp at h
  · rename_i h0
    split at h
    · rename_i ht
      obtain rfl := Option.some.inj h
      obtain ⟨p, hp⟩ := exists_numbered h0 (mem_items.mp hitems).1
      rw [keyOf_of_numbered hp, List.contains_iff_mem] at ht
      rw [bodyOf_of_numbered hp] at hdot
      exact .reduce hset hp (hdot ▸ hi) ht
    · simp at h

/-- **What competes in a cell** are the actions that the state performs. -/
theorem mem_cellAt {k : Nat} {set : ItemSet} {out : List Edge} {t : String} {a : Action}
    (hset : stateAt? ps k = some set) (hout : (automaton ps).edges[k]? = some out) :
    a ∈ cellAt ps set out t ↔ Performs ps k t a := by
  simp only [cellAt, competing, List.mem_append, mem_shifts, List.mem_filterMap, List.mem_filter]
  constructor
  · rintro (⟨n, he, rfl⟩ | ⟨i, ⟨hi, hc⟩, h⟩)
    · exact .shift ⟨out, hout, he⟩
    · exact completion?_eq_some hset hi hc h
  · intro h
    cases h with
    | shift hl =>
      obtain ⟨out', hout', he⟩ := hl
      obtain rfl := Option.some.inj (hout'.symm.trans hout)
      exact Or.inl ⟨_, he, rfl⟩
    | @reduce set' n p hset' hp hi ht =>
      obtain rfl := Option.some.inj (hset'.symm.trans hset)
      refine Or.inr ⟨_, ⟨hi, ?_⟩, ?_⟩
      · simp [Item.isComplete, bodyOf_of_numbered hp]
      · simp [completion?, ne_zero_of_numbered hp, keyOf_of_numbered hp, ht]
    | @accept set' hset' hi ht =>
      obtain rfl := Option.some.inj (hset'.symm.trans hset)
      refine Or.inr ⟨_, ⟨hi, ?_⟩, ?_⟩
      · simp [Item.isComplete, bodyOf]
      · simp [completion?, ht]

/-- Only terminals have actions. -/
theorem mem_terminals_of_performs (hps : WellDefined ps) {k : Nat} {t : String} {a : Action}
    (h : Performs ps k t a) : t ∈ terminals ps := by
  cases h with
  | shift hl =>
    obtain ⟨_, _, i, _, hnext⟩ := exists_next_of_leads hl
    rcases mem_body_of_next hnext with h | h
    · cases h
    · exact mem_terminals.mpr (Or.inl h)
  | reduce _ _ _ ht => exact mem_terminals_of_follow hps ht
  | accept _ _ ht => exact ht ▸ eof_mem_terminals

/-! ## The rows of a built table -/

/-- The table of a grammar that was built, and that no cell has two actions. -/
structure Built (ps : List Production) (t : Table) : Prop where
  terminals : t.terminals = terminals ps
  nonterminals : t.nonterminals = nonterminals ps
  actions : t.actions = (cells ps (automaton ps)).map fun row => row.map List.head?
  gotos : t.gotos = (automaton ps).edges.map (gotoRow (Grammar.nonterminals ps))
  single : ∀ row ∈ cells ps (automaton ps), ∀ cell ∈ row, cell.length ≤ 1

theorem length_of_cells {row : List (List Action)} (h : row ∈ cells ps (automaton ps)) :
    row.length = (terminals ps).length := by
  simp only [cells, List.mem_map] at h
  obtain ⟨s, _, rfl⟩ := h
  simp

theorem built_of_buildTable {t : Table} (h : buildTable ps = .ok t) : Built ps t := by
  unfold buildTable at h
  simp only at h
  split at h
  · simp at h
  · rename_i hnone
    obtain rfl := Except.ok.inj h
    refine ⟨rfl, rfl, rfl, rfl, fun row hrow cell hcell => ?_⟩
    by_contra hlt
    obtain ⟨n, hn⟩ := List.mem_iff_getElem?.mp hrow
    obtain ⟨m, hm⟩ := List.mem_iff_getElem?.mp hcell
    have hm' : m < (terminals ps).length := by
      rw [← length_of_cells hrow]
      exact (List.getElem?_eq_some_iff.mp hm).1
    have hzip : (cell, (terminals ps)[m]) ∈ row.zip (terminals ps) :=
      List.mem_of_getElem? (i := m) (by simp [List.getElem?_zip_eq_some, hm, hm'])
    have hrow' : (row, n) ∈ (cells ps (automaton ps)).zipIdx :=
      List.mk_mem_zipIdx_iff_getElem?.mpr hn
    have hmem : ⟨n, (terminals ps)[m], cell⟩ ∈ rowConflicts (terminals ps) (row, n) := by
      simp only [rowConflicts, List.mem_filterMap]
      exact ⟨_, hzip, by simp; omega⟩
    have : ⟨n, (terminals ps)[m], cell⟩ ∈
        (cells ps (automaton ps)).zipIdx.flatMap (rowConflicts (terminals ps)) :=
      List.mem_flatMap.mpr ⟨_, hrow', hmem⟩
    rw [hnone] at this
    exact absurd this List.not_mem_nil

theorem cells_getElem? {k : Nat} {set : ItemSet} {out : List Edge}
    (hset : stateAt? ps k = some set) (hout : (automaton ps).edges[k]? = some out) :
    (cells ps (automaton ps))[k]? = some ((terminals ps).map (cellAt ps set out)) := by
  have hzip : ((automaton ps).states.zip (automaton ps).edges)[k]? = some (set, out) :=
    List.getElem?_zip_eq_some.mpr ⟨hset, hout⟩
  simp only [cells, List.getElem?_map, hzip]
  rfl

namespace Built

variable {t : Table}

theorem length_cellAt_le (h : Built ps t) {k : Nat} {set : ItemSet} {out : List Edge} {u : String}
    (hset : stateAt? ps k = some set) (hout : (automaton ps).edges[k]? = some out)
    (hu : u ∈ Grammar.terminals ps) : (cellAt ps set out u).length ≤ 1 :=
  h.single _ (List.mem_of_getElem? (cells_getElem? hset hout)) _ (List.mem_map_of_mem hu)

theorem action_eq_head (h : Built ps t) {k : Nat} {set : ItemSet} {out : List Edge} {u : String}
    (hset : stateAt? ps k = some set) (hout : (automaton ps).edges[k]? = some out)
    (hu : u ∈ Grammar.terminals ps) : t.action k u = (cellAt ps set out u).head? := by
  unfold Table.action
  rw [h.terminals]
  refine Table.cell?_of_row (f := fun u => (cellAt ps set out u).head?) ?_ hu
  rw [h.actions, List.getElem?_map, cells_getElem? hset hout]
  simp

theorem exists_state_of_action (h : Built ps t) {k : Nat} {u : String} {a : Action}
    (ha : t.action k u = some a) :
    u ∈ Grammar.terminals ps ∧ ∃ set out, stateAt? ps k = some set ∧
      (automaton ps).edges[k]? = some out := by
  obtain ⟨hu, row, hrow⟩ := Table.cell?_eq_some ha
  rw [h.terminals] at hu
  refine ⟨hu, ?_⟩
  have hk := (List.getElem?_eq_some_iff.mp hrow).1
  rw [h.actions] at hk
  simp only [cells, List.length_map, List.length_zip] at hk
  exact ⟨_, _, List.getElem?_eq_getElem (by omega), List.getElem?_eq_getElem (by omega)⟩

theorem eq_head_of_mem {α : Type} {a : α} : ∀ {xs : List α}, xs.length ≤ 1 → a ∈ xs →
    xs.head? = some a
  | [b], _, h => by rw [List.mem_singleton.mp h]; rfl
  | _ :: _ :: _, hlen, _ => by simp at hlen

/-- **The action of a cell** is the one that the state performs before the terminal. -/
theorem action_eq_some_iff (h : Built ps t) (hps : WellDefined ps) {k : Nat} {u : String}
    {a : Action} : t.action k u = some a ↔ Performs ps k u a := by
  constructor
  · intro ha
    obtain ⟨hu, set, out, hset, hout⟩ := h.exists_state_of_action ha
    rw [h.action_eq_head hset hout hu] at ha
    exact (mem_cellAt hset hout).mp (List.mem_of_head? ha)
  · intro ha
    have hu := mem_terminals_of_performs hps ha
    have hstate : ∃ set, stateAt? ps k = some set := by
      cases ha with
      | shift hl => exact exists_stateAt_of_leads hl
      | reduce hset => exact ⟨_, hset⟩
      | accept hset => exact ⟨_, hset⟩
    obtain ⟨set, hset⟩ := hstate
    obtain ⟨out, hout⟩ := exists_edges hset
    rw [h.action_eq_head hset hout hu]
    exact eq_head_of_mem (h.length_cellAt_le hset hout hu) ((mem_cellAt hset hout).mpr ha)

/-- **A table goes on** behind a nonterminal along the edge of the automaton. -/
theorem goto_eq_some_iff (h : Built ps t) {k n : Nat} {a : String}
    (ha : a ∈ Grammar.nonterminals ps) :
    t.goto k a = some n ↔ Leads ps k (.nonterminal a) n := by
  have hcell : ∀ out, (automaton ps).edges[k]? = some out →
      t.goto k a = (out.find? fun e => e.symbol = .nonterminal a).map Edge.target := by
    intro out hout
    unfold Table.goto
    rw [h.nonterminals]
    refine Table.cell?_of_row
      (f := fun a => (out.find? fun e => e.symbol = .nonterminal a).map Edge.target) ?_ ha
    rw [h.gotos, List.getElem?_map, hout]
    rfl
  constructor
  · intro hgoto
    obtain ⟨_, row, hrow⟩ := Table.cell?_eq_some hgoto
    rw [h.gotos, List.getElem?_map, Option.map_eq_some_iff] at hrow
    obtain ⟨out, hout, _⟩ := hrow
    rw [hcell out hout, Option.map_eq_some_iff] at hgoto
    obtain ⟨⟨x, m⟩, he, rfl⟩ := hgoto
    have hx : x = .nonterminal a := by simpa using List.find?_some he
    exact ⟨out, hout, hx ▸ List.mem_of_find?_eq_some he⟩
  · intro hl
    obtain ⟨out, hout, he⟩ := hl
    have hsome : (out.find? fun e => decide (e.symbol = .nonterminal a)).isSome := by
      rw [List.find?_isSome]
      exact ⟨_, he, by simp⟩
    obtain ⟨⟨x, m⟩, hfound⟩ := Option.isSome_iff_exists.mp hsome
    have hx : x = .nonterminal a := by simpa using List.find?_some hfound
    subst hx
    rw [hcell out hout, hfound]
    exact congrArg some
      (leads_unique ⟨out, hout, List.mem_of_find?_eq_some hfound⟩ ⟨out, hout, he⟩)

end Built

/-! ## Grammars that were built -/

theorem built_of_ofProductions (h : ofProductions ps = .ok g) :
    g.productions = ps ∧ Built ps g.table := by
  unfold ofProductions at h
  cases ht : buildTable ps with
  | error e => simp [ht, Except.map] at h
  | ok t =>
    simp only [ht, Except.map, Except.ok.injEq] at h
    subst h
    exact ⟨rfl, built_of_buildTable ht⟩

theorem production?_eq_numbered? (g : Grammar) (n : Nat) :
    g.production? n = numbered? g.productions n := by
  cases n <;> rfl

end Grammar

end PixQuery
