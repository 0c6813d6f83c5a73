import Mathlib.Algebra.Group.Nat.Defs
import Mathlib.Data.List.Sublists
import PixQuery.Grammar.Automaton
import PixQuery.Proofs.Grammar.ItemSets

/-!
# The automaton holds every reachable item set

`explore` numbers item sets as it finds them and stops after a bounded number of rounds. Item sets
are sublists of one list of items, so the bound of `automaton` is never met: when exploring ends,
every state has its edges.

Results:
* `explored_automaton`: the states of the automaton are different item sets, the first is
  `startSet`, and a state has one edge for each symbol behind a dot, to the state of `advance`.
* `states_invariant`: what seeing a symbol keeps holds of all states.
* `undotted_induction`: an undotted production is there because an item waits for its key.
-/

namespace PixQuery.Grammar

variable {ps : List Production}

/-! ## Numbering -/

theorem prefix_number (states : List ItemSet) (set : ItemSet) :
    states <+: (number states set).1 := by
  unfold number
  split
  · exact List.prefix_rfl
  · exact List.prefix_append _ _

theorem number_getElem (states : List ItemSet) (set : ItemSet) :
    (number states set).1[(number states set).2]? = some set := by
  unfold number
  split
  · rename_i n h
    obtain ⟨hn, h, _⟩ := List.idxOf?_eq_some_iff.mp h
    rw [List.getElem?_eq_getElem hn]
    exact congrArg some h
  · simp

theorem mem_number {states : List ItemSet} {set s : ItemSet} (h : s ∈ (number states set).1) :
    s ∈ states ∨ s = set := by
  unfold number at h
  split at h
  · exact Or.inl h
  · simpa using h

theorem nodup_number {states : List ItemSet} (set : ItemSet) (h : states.Nodup) :
    (number states set).1.Nodup := by
  unfold number
  split
  · exact h
  · rename_i hnone
    have hnot : set ∉ states := List.idxOf?_eq_none_iff.mp hnone
    rw [List.nodup_append]
    refine ⟨h, List.nodup_singleton _, fun a ha b hb => ?_⟩
    rw [List.mem_singleton.mp hb]
    exact fun heq => hnot (heq ▸ ha)

theorem getElem?_of_isPrefixOf {α : Type} {xs ys : List α} (h : xs <+: ys) {n : Nat} {a : α}
    (hn : xs[n]? = some a) : ys[n]? = some a := by
  obtain ⟨zs, rfl⟩ := h
  rw [List.getElem?_append_left (List.getElem?_eq_some_iff.mp hn).1]
  exact hn

/-- The edges found from an item set, and what becomes of the states. -/
structure EdgesFound (ps : List Production) (set : ItemSet) (symbols : List Sym)
    (before after : List ItemSet) (out : List Edge) : Prop where
  grown : before <+: after
  nodup : before.Nodup → after.Nodup
  mem : ∀ s ∈ after, s ∈ before ∨ ∃ x ∈ symbols, s = advance ps set x
  symbols : out.map Edge.symbol = symbols
  targets : ∀ e ∈ out, after[e.target]? = some (advance ps set e.symbol)

theorem edgesFound (set : ItemSet) : ∀ (symbols : List Sym) (states : List ItemSet),
    EdgesFound ps set symbols states (edgesFrom ps set states symbols).1
      (edgesFrom ps set states symbols).2
  | [], states =>
    ⟨List.prefix_rfl, id, fun _ h => Or.inl h, rfl, fun _ h => absurd h List.not_mem_nil⟩
  | x :: symbols, states => by
    have ih := edgesFound set symbols (number states (advance ps set x)).1
    simp only [edgesFrom]
    refine ⟨(prefix_number _ _).trans ih.grown, fun h => ih.nodup (nodup_number _ h),
      fun s hs => ?_, by simp [ih.symbols], fun e he => ?_⟩
    · rcases ih.mem s hs with hs | ⟨y, hy, hs⟩
      · rcases mem_number hs with hs | hs
        · exact Or.inl hs
        · exact Or.inr ⟨x, List.mem_cons_self, hs⟩
      · exact Or.inr ⟨y, List.mem_cons_of_mem _ hy, hs⟩
    · rcases List.mem_cons.mp he with rfl | he
      · exact getElem?_of_isPrefixOf ih.grown (number_getElem _ _)
      · exact ih.targets e he

/-! ## Exploring -/

/-- What is known of the states found so far and of the edges out of the first of them. -/
structure Explored (ps : List Production) (states : List ItemSet) (edges : List (List Edge)) :
    Prop where
  start : states[0]? = some (startSet ps)
  nodup : states.Nodup
  sublist : ∀ set ∈ states, set.Sublist (items ps)
  closed : ∀ set ∈ states, IsClosed ps set
  length_le : edges.length ≤ states.length
  symbols : ∀ (k : Nat) set (out : List Edge), states[k]? = some set → edges[k]? = some out →
    out.map Edge.symbol = nextSymbols ps set
  targets : ∀ (k : Nat) set (out : List Edge), states[k]? = some set → edges[k]? = some out →
    ∀ e ∈ out, states[e.target]? = some (advance ps set e.symbol)

theorem explored_start : Explored ps [startSet ps] [] where
  start := rfl
  nodup := List.nodup_singleton _
  sublist set h := by
    rw [List.mem_singleton.mp h]
    exact closure_sublist _
  closed set h := by
    rw [List.mem_singleton.mp h]
    exact closed_closure _
  length_le := Nat.zero_le _
  symbols k set out _ h := by simp at h
  targets k set out _ h := by simp at h

/-- There are no more states than sublists of the items. -/
theorem Explored.length_states_le {states : List ItemSet} {edges : List (List Edge)}
    (h : Explored ps states edges) : states.length ≤ 2 ^ (items ps).length := by
  have hsub : states ⊆ (items ps).sublists := fun set hset =>
    List.mem_sublists.mpr (h.sublist set hset)
  have hle := (List.subperm_of_subset h.nodup hsub).length_le
  rwa [List.length_sublists] at hle

/-- The edges of one more state. -/
theorem Explored.extend {states : List ItemSet} {edges : List (List Edge)} {set : ItemSet}
    (h : Explored ps states edges) (hset : states[edges.length]? = some set) :
    Explored ps (edgesFrom ps set states (nextSymbols ps set)).1
      (edges ++ [(edgesFrom ps set states (nextSymbols ps set)).2]) := by
  have found := @edgesFound ps set (nextSymbols ps set) states
  generalize (edgesFrom ps set states (nextSymbols ps set)).1 = after at found
  generalize (edgesFrom ps set states (nextSymbols ps set)).2 = out at found
  have hlt : edges.length < states.length := (List.getElem?_eq_some_iff.mp hset).1
  have hlen := found.grown.length_le
  -- a state with edges is an old one with its old edges, or `set` with the new ones
  have hold : ∀ (k : Nat) s o, after[k]? = some s → (edges ++ [out])[k]? = some o →
      states[k]? = some s ∧ (edges[k]? = some o ∨ s = set ∧ o = out) := by
    intro k s o hs ho
    have hk : k < edges.length + 1 := by
      have hk := (List.getElem?_eq_some_iff.mp ho).1
      simpa using hk
    have hs' : states[k]? = some s := by
      have hk' : k < states.length := by omega
      have hget := getElem?_of_isPrefixOf found.grown (List.getElem?_eq_getElem hk')
      rw [hget, Option.some.injEq] at hs
      rw [List.getElem?_eq_getElem hk', hs]
    refine ⟨hs', ?_⟩
    by_cases hk' : k < edges.length
    · rw [List.getElem?_append_left hk'] at ho
      exact Or.inl ho
    · obtain rfl : k = edges.length := by omega
      rw [hset, Option.some.injEq] at hs'
      simp only [List.getElem?_concat_length, Option.some.injEq] at ho
      exact Or.inr ⟨hs'.symm, ho.symm⟩
  refine ⟨getElem?_of_isPrefixOf found.grown h.start, found.nodup h.nodup, fun s hs => ?_,
    fun s hs => ?_, by simp; omega, fun k s o hs ho => ?_, fun k s o hs ho e he => ?_⟩
  · rcases found.mem s hs with hs | ⟨x, _, rfl⟩
    · exact h.sublist s hs
    · exact closure_sublist _
  · rcases found.mem s hs with hs | ⟨x, _, rfl⟩
    · exact h.closed s hs
    · exact closed_closure _
  · obtain ⟨hs, ho | ⟨rfl, rfl⟩⟩ := hold k s o hs ho
    · exact h.symbols k s o hs ho
    · exact found.symbols
  · obtain ⟨hs, ho | ⟨rfl, rfl⟩⟩ := hold k s o hs ho
    · exact getElem?_of_isPrefixOf found.grown (h.targets k s o hs ho e he)
    · exact found.targets e he

theorem explored_explore : ∀ (n : Nat) (states : List ItemSet) (edges : List (List Edge)),
    Explored ps states edges → 2 ^ (items ps).length ≤ n + edges.length →
      Explored ps (explore ps n states edges).states (explore ps n states edges).edges ∧
      (explore ps n states edges).edges.length = (explore ps n states edges).states.length
  | 0, states, edges, h, hn => by
    have hle := h.length_states_le
    have hge := h.length_le
    simp only [explore]
    exact ⟨h, by omega⟩
  | n + 1, states, edges, h, hn => by
    simp only [explore]
    split
    · rename_i hnone
      have hge := List.getElem?_eq_none_iff.mp hnone
      exact ⟨h, Nat.le_antisymm h.length_le hge⟩
    · rename_i set hset
      exact explored_explore n _ _ (h.extend hset) (by simp; omega)

/-- **The automaton is fully explored**: every state has its edges. -/
theorem explored_automaton (ps : List Production) :
    Explored ps (automaton ps).states (automaton ps).edges ∧
      (automaton ps).edges.length = (automaton ps).states.length :=
  explored_explore _ _ _ explored_start (Nat.le_refl _)

theorem explore_invariant {P : ItemSet → Prop}
    (hstep : ∀ set, P set → ∀ x ∈ nextSymbols ps set, P (advance ps set x)) :
    ∀ (n : Nat) (states : List ItemSet) (edges : List (List Edge)), (∀ set ∈ states, P set) →
      ∀ set ∈ (explore ps n states edges).states, P set
  | 0, _, _, h => h
  | n + 1, states, edges, h => by
    simp only [explore]
    split
    · exact h
    · rename_i set hset
      refine explore_invariant hstep n _ _ fun s hs => ?_
      rcases (edgesFound set (nextSymbols ps set) states).mem s hs with hs | ⟨x, hx, rfl⟩
      · exact h s hs
      · exact hstep set (h set (List.mem_of_getElem? hset)) x hx

/-- **What every step keeps** holds of all states. -/
theorem states_invariant {P : ItemSet → Prop} (hstart : P (startSet ps))
    (hstep : ∀ set, P set → ∀ x ∈ nextSymbols ps set, P (advance ps set x)) :
    ∀ set ∈ (automaton ps).states, P set :=
  explore_invariant hstep _ _ _ fun _ h => List.mem_singleton.mp h ▸ hstart

/-! ## The states and their edges -/

/-- The item set with a number. -/
def stateAt? (ps : List Production) (k : Nat) : Option ItemSet := (automaton ps).states[k]?

/-- Seeing a symbol in a state leads to a state. -/
def Leads (ps : List Production) (k : Nat) (x : Sym) (n : Nat) : Prop :=
  ∃ out, (automaton ps).edges[k]? = some out ∧ ⟨x, n⟩ ∈ out

theorem stateAt_zero : stateAt? ps 0 = some (startSet ps) := (explored_automaton ps).1.start

theorem closed_of_stateAt {k : Nat} {set : ItemSet} (h : stateAt? ps k = some set) :
    IsClosed ps set :=
  (explored_automaton ps).1.closed set (List.mem_of_getElem? h)

theorem mem_items_of_stateAt {k : Nat} {set : ItemSet} (h : stateAt? ps k = some set) {i : Item}
    (hi : i ∈ set) : i ∈ items ps :=
  ((explored_automaton ps).1.sublist set (List.mem_of_getElem? h)).subset hi

theorem nodup_of_stateAt {k : Nat} {set : ItemSet} (h : stateAt? ps k = some set)
    (hitems : (items ps).Nodup) : set.Nodup :=
  ((explored_automaton ps).1.sublist set (List.mem_of_getElem? h)).nodup hitems

/-- Every state has its list of edges. -/
theorem exists_edges {k : Nat} {set : ItemSet} (h : stateAt? ps k = some set) :
    ∃ out, (automaton ps).edges[k]? = some out := by
  have hk := (List.getElem?_eq_some_iff.mp h).1
  rw [← (explored_automaton ps).2] at hk
  exact ⟨_, List.getElem?_eq_getElem hk⟩

/-- A state has an edge for every symbol behind a dot. -/
theorem exists_leads {k : Nat} {set : ItemSet} {i : Item} {x : Sym}
    (h : stateAt? ps k = some set) (hi : i ∈ set) (hnext : i.next? ps = some x) :
    ∃ n, Leads ps k x n := by
  obtain ⟨out, hout⟩ := exists_edges h
  have hx : x ∈ out.map Edge.symbol := by
    rw [(explored_automaton ps).1.symbols k set out h hout]
    exact mem_nextSymbols.mpr ⟨i, hi, hnext⟩
  obtain ⟨⟨y, n⟩, he, rfl⟩ := List.mem_map.mp hx
  exact ⟨n, out, hout, he⟩

theorem stateAt_of_leads {k n : Nat} {set : ItemSet} {x : Sym} (h : stateAt? ps k = some set)
    (hl : Leads ps k x n) : stateAt? ps n = some (advance ps set x) := by
  obtain ⟨out, hout, he⟩ := hl
  exact (explored_automaton ps).1.targets k set out h hout _ he

/-- The state that an edge leaves has an item set. -/
theorem exists_stateAt_of_leads {k n : Nat} {x : Sym} (hl : Leads ps k x n) :
    ∃ set, stateAt? ps k = some set := by
  obtain ⟨out, hout, _⟩ := hl
  have hk := (List.getElem?_eq_some_iff.mp hout).1
  rw [(explored_automaton ps).2] at hk
  exact ⟨_, List.getElem?_eq_getElem hk⟩

/-- An edge sees a symbol behind a dot. -/
theorem exists_next_of_leads {k n : Nat} {x : Sym} (hl : Leads ps k x n) :
    ∃ set, stateAt? ps k = some set ∧ ∃ i ∈ set, i.next? ps = some x := by
  obtain ⟨set, hset⟩ := exists_stateAt_of_leads hl
  obtain ⟨out, hout, he⟩ := hl
  have hx : x ∈ nextSymbols ps set := by
    rw [← (explored_automaton ps).1.symbols k set out hset hout]
    exact List.mem_map.mpr ⟨_, he, rfl⟩
  exact ⟨set, hset, mem_nextSymbols.mp hx⟩

theorem nodup_eraseDups {α : Type} [BEq α] [LawfulBEq α] : ∀ xs : List α, xs.eraseDups.Nodup
  | [] => by simp
  | x :: xs => by
    rw [List.eraseDups_cons, List.nodup_cons]
    exact ⟨by simp [List.mem_eraseDups], nodup_eraseDups _⟩
termination_by xs => xs.length
decreasing_by
  exact Nat.lt_succ_of_le (List.length_filter_le _ _)

theorem nodup_symbols {k : Nat} {set : ItemSet} {out : List Edge} (h : stateAt? ps k = some set)
    (hout : (automaton ps).edges[k]? = some out) : (out.map Edge.symbol).Nodup := by
  rw [(explored_automaton ps).1.symbols k set out h hout]
  exact nodup_eraseDups _

/-- A state has one edge for a symbol. -/
theorem leads_unique {k m n : Nat} {x : Sym} (hm : Leads ps k x m) (hn : Leads ps k x n) :
    m = n := by
  obtain ⟨set, hset⟩ := exists_stateAt_of_leads hm
  have hm := stateAt_of_leads hset hm
  have hn := stateAt_of_leads hset hn
  exact (List.getElem?_inj (List.getElem?_eq_some_iff.mp hm).1 (explored_automaton ps).1.nodup).mp
    (hm.trans hn.symm)

/-! ## Why an undotted production is in a state -/

/-- A state is the closure of items whose productions have been begun, or of the added one. -/
theorem exists_kernel {k : Nat} {set : ItemSet} (h : stateAt? ps k = some set) :
    ∃ kernel, set = closure ps kernel ∧
      ∀ i ∈ kernel, i ∈ set ∧ (i.dot ≠ 0 ∨ i.production = 0) := by
  refine states_invariant (P := fun set => ∃ kernel, set = closure ps kernel ∧
      ∀ i ∈ kernel, i ∈ set ∧ (i.dot ≠ 0 ∨ i.production = 0)) ?_ ?_ set (List.mem_of_getElem? h)
  · refine ⟨_, rfl, fun i hi => ?_⟩
    obtain rfl := List.mem_singleton.mp hi
    exact ⟨zero_mem_startSet, Or.inr rfl⟩
  · rintro set - x -
    refine ⟨_, rfl, fun j hj => ?_⟩
    obtain ⟨i, hi, rfl⟩ := List.mem_map.mp hj
    obtain ⟨hi, hnext⟩ := List.mem_filter.mp hi
    exact ⟨mem_advance_of_next hi (by simpa using hnext), Or.inl (Nat.succ_ne_zero _)⟩

/-- **What holds of the key of an undotted production in a state**: what holds of the keys that the
items in their middle wait for and passes from each key on to what its productions begin with. Some
item waits for it. -/
theorem undotted_induction {k : Nat} {set : ItemSet} (h : stateAt? ps k = some set)
    {P : String → Prop}
    (begun : ∀ i ∈ set, i.dot ≠ 0 ∨ i.production = 0 →
      ∀ a, i.next? ps = some (.nonterminal a) → P a)
    (undotted : ∀ n p a, numbered? ps n = some p → ⟨n, 0⟩ ∈ set → P p.key →
      p.first = .nonterminal a → P a)
    {n : Nat} {p : Production} (hp : numbered? ps n = some p) (hi : ⟨n, 0⟩ ∈ set) :
    P p.key ∧ ∃ i ∈ set, i.next? ps = some (.nonterminal p.key) := by
  obtain ⟨kernel, rfl, hkernel⟩ := exists_kernel h
  refine closure_induction (fun i hi => (hkernel i hi).1)
    (fun i hi => begun i (hkernel i hi).1 (hkernel i hi).2) undotted hp hi fun hmem => ?_
  rcases (hkernel _ hmem).2 with hdot | h0
  · exact hdot rfl
  · exact ne_zero_of_numbered hp h0

/-- Some item waits for the key of an undotted production. -/
theorem exists_waiting {k : Nat} {set : ItemSet} (h : stateAt? ps k = some set) {n : Nat}
    {p : Production} (hp : numbered? ps n = some p) (hi : ⟨n, 0⟩ ∈ set) :
    ∃ i ∈ set, i.next? ps = some (.nonterminal p.key) :=
  (undotted_induction (P := fun _ => True) h (fun _ _ _ _ _ => trivial)
    (fun _ _ _ _ _ _ _ => trivial) hp hi).2

end PixQuery.Grammar
