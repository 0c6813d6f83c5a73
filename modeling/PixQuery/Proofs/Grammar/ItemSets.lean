import PixQuery.Grammar.Item
import PixQuery.Proofs.Grammar.Saturation

/-!
# What item sets hold

An item set is the closure of a kernel: `startSet` of the item in which nothing has been seen, and
`advance` of the items that have just seen a symbol. Here is said which items are in them, so that
nothing behind this module opens `closure`.

Results:
* `closed_closure`: a closure holds the undotted productions of every nonterminal behind a dot.
* `mem_advance_iff`: the dotted items behind a symbol are those that saw it.
* `mem_startSet_dot`, `zero_not_mem_advance`: the first item set is the only one in which the added
  production has not been begun.
-/

namespace PixQuery.Grammar

variable {ps : List Production}

/-- The production with a number, counted from one. -/
def numbered? (ps : List Production) : Nat → Option Production
  | 0 => none
  | n + 1 => ps[n]?

theorem bodyOf_of_numbered {n : Nat} {p : Production} (h : numbered? ps n = some p) :
    bodyOf ps n = p.body := by
  cases n with
  | zero => simp [numbered?] at h
  | succ n =>
    simp only [numbered?] at h
    simp [bodyOf, h]

theorem keyOf_of_numbered {n : Nat} {p : Production} (h : numbered? ps n = some p) :
    keyOf ps n = p.key := by
  cases n with
  | zero => simp [numbered?] at h
  | succ n =>
    simp only [numbered?] at h
    simp [keyOf, h]

theorem mem_of_numbered {n : Nat} {p : Production} (h : numbered? ps n = some p) : p ∈ ps := by
  cases n with
  | zero => simp [numbered?] at h
  | succ n => exact List.mem_of_getElem? h

theorem ne_zero_of_numbered {n : Nat} {p : Production} (h : numbered? ps n = some p) : n ≠ 0 := by
  rintro rfl
  simp [numbered?] at h

theorem le_length_of_numbered {n : Nat} {p : Production} (h : numbered? ps n = some p) :
    n ≤ ps.length := by
  cases n with
  | zero => exact Nat.zero_le _
  | succ n => exact (List.getElem?_eq_some_iff.mp h).1

theorem exists_numbered {n : Nat} (h0 : n ≠ 0) (h : n ≤ ps.length) :
    ∃ p, numbered? ps n = some p := by
  cases n with
  | zero => exact absurd rfl h0
  | succ n => exact ⟨ps[n], List.getElem?_eq_getElem h⟩

theorem exists_numbered_of_mem {p : Production} (h : p ∈ ps) : ∃ n, numbered? ps n = some p := by
  obtain ⟨n, hn⟩ := List.mem_iff_getElem?.mp h
  exact ⟨n + 1, hn⟩

/-! ## Items -/

theorem mem_items {i : Item} :
    i ∈ items ps ↔ i.production ≤ ps.length ∧ i.dot ≤ (bodyOf ps i.production).length := by
  simp only [items, List.mem_flatMap, List.mem_map, List.mem_range]
  constructor
  · rintro ⟨n, hn, d, hd, rfl⟩
    exact ⟨Nat.lt_succ_iff.mp hn, Nat.lt_succ_iff.mp hd⟩
  · rintro ⟨hn, hd⟩
    exact ⟨i.production, Nat.lt_succ_of_le hn, i.dot, Nat.lt_succ_of_le hd, rfl⟩

theorem bodyOf_of_length_lt {n : Nat} (h : ps.length < n) : bodyOf ps n = [] := by
  cases n with
  | zero => exact absurd h (Nat.not_lt_zero _)
  | succ n => simp [bodyOf, List.getElem?_eq_none (Nat.lt_succ_iff.mp h)]

theorem dot_lt_of_next {i : Item} {x : Sym} (h : i.next? ps = some x) :
    i.dot < (bodyOf ps i.production).length :=
  (List.getElem?_eq_some_iff.mp h).1

/-- An item with a symbol behind its dot has a production. -/
theorem production_le_of_next {i : Item} {x : Sym} (h : i.next? ps = some x) :
    i.production ≤ ps.length := by
  by_contra hlt
  have hdot := dot_lt_of_next h
  rw [bodyOf_of_length_lt (Nat.lt_of_not_le hlt)] at hdot
  exact Nat.not_lt_zero _ hdot

theorem advance_mem_items {i : Item} {x : Sym} (h : i.next? ps = some x) :
    i.advance ∈ items ps := by
  have hdot : i.dot + 1 ≤ (bodyOf ps i.production).length := dot_lt_of_next h
  exact mem_items.mpr ⟨production_le_of_next (i := i) h, hdot⟩

/-- An undotted production has its first symbol behind the dot. -/
theorem next_undotted {n : Nat} {p : Production} (h : numbered? ps n = some p) :
    (Item.mk n 0).next? ps = some p.first := by
  simp [Item.next?, bodyOf_of_numbered h, Production.body]

theorem Sym.nonterminal?_eq_some {x : Sym} {a : String} :
    x.nonterminal? = some a ↔ x = .nonterminal a := by
  cases x <;> simp [Sym.nonterminal?]

/-! ## Closures -/

theorem mem_closure {kernel : List Item} {i : Item} :
    i ∈ closure ps kernel ↔ i ∈ items ps ∧
      (i ∈ kernel ∨ i.dot = 0 ∧ i.production ≠ 0 ∧ keyOf ps i.production ∈ expanded ps kernel) := by
  simp [closure, List.mem_filter, and_assoc]

theorem mem_expandStep {keys : List String} {a : String} :
    a ∈ expandStep ps keys ↔ ∃ p ∈ ps, p.key ∈ keys ∧ p.first.nonterminal? = some a := by
  simp only [expandStep, List.mem_filterMap, List.contains_iff_mem]
  refine exists_congr fun p => and_congr_right fun _ => ?_
  split <;> simp_all

/-- What a nonterminal to be expanded begins with is to be expanded too. -/
theorem expanded_closed {kernel : List Item} {p : Production} {a : String} (hp : p ∈ ps)
    (hkey : p.key ∈ expanded ps kernel) (hfirst : p.first = .nonterminal a) :
    a ∈ expanded ps kernel := by
  have hstocked : Stocked (expandStep ps) (fun _ => True)
      (ps.filterMap fun p => p.first.nonterminal?) :=
    ⟨fun keys _ b hb => by
      obtain ⟨q, hq, _, hb⟩ := mem_expandStep.mp hb
      exact List.mem_filterMap.mpr ⟨q, hq, hb⟩, fun _ _ => trivial⟩
  have hrounds := Nat.le_trans
    (missing_le_length (ps.filterMap fun p => p.first.nonterminal?)
      (kernel.filterMap fun i => (i.next? ps).bind Sym.nonterminal?))
    (List.length_filterMap_le _ _)
  exact saturate_closed hstocked ps.length _ (fun _ _ => trivial) hrounds a
    (mem_expandStep.mpr ⟨p, hp, hkey, by rw [hfirst]; rfl⟩)

theorem mem_expanded_of_kernel {kernel : List Item} {i : Item} {a : String} (hi : i ∈ kernel)
    (hnext : i.next? ps = some (.nonterminal a)) : a ∈ expanded ps kernel :=
  mem_saturate_of_mem _ (List.mem_filterMap.mpr ⟨i, hi, by rw [hnext]; rfl⟩)

/-- The undotted productions of every nonterminal behind a dot are there. -/
def IsClosed (ps : List Production) (set : ItemSet) : Prop :=
  ∀ i ∈ set, ∀ a, i.next? ps = some (.nonterminal a) →
    ∀ n p, numbered? ps n = some p → p.key = a → ⟨n, 0⟩ ∈ set

/-- **A closure is closed.** -/
theorem closed_closure (kernel : List Item) : IsClosed ps (closure ps kernel) := by
  intro i hi a hnext n p hp hkey
  obtain ⟨_, hi⟩ := mem_closure.mp hi
  have ha : a ∈ expanded ps kernel := by
    rcases hi with hi | ⟨hdot, hne, hexp⟩
    · exact mem_expanded_of_kernel hi hnext
    · obtain ⟨q, hq⟩ := exists_numbered hne (production_le_of_next hnext)
      have hfirst : (Item.mk i.production 0).next? ps = some (.nonterminal a) := by
        rw [← hdot]
        exact hnext
      rw [next_undotted hq, Option.some.injEq] at hfirst
      rw [keyOf_of_numbered hq] at hexp
      exact expanded_closed (mem_of_numbered hq) hexp hfirst
  refine mem_closure.mpr ⟨mem_items.mpr ⟨le_length_of_numbered hp, Nat.zero_le _⟩,
    Or.inr ⟨rfl, ne_zero_of_numbered hp, ?_⟩⟩
  rw [keyOf_of_numbered hp, hkey]
  exact ha

/-- An item of a closure is of the kernel, or its production has not been begun. -/
theorem mem_kernel_or_undotted {kernel : List Item} {i : Item} (h : i ∈ closure ps kernel) :
    i ∈ kernel ∨ i.dot = 0 ∧ i.production ≠ 0 := by
  rcases (mem_closure.mp h).2 with h | ⟨hdot, hne, _⟩
  · exact Or.inl h
  · exact Or.inr ⟨hdot, hne⟩

/-- **What holds of the key of an undotted production in a closure**: what holds of the keys that
the kernel waits for and passes from each key on to what its productions begin with. -/
theorem closure_induction {kernel : List Item} {P : String → Prop}
    (hsub : kernel ⊆ closure ps kernel)
    (hkernel : ∀ i ∈ kernel, ∀ a, i.next? ps = some (.nonterminal a) → P a)
    (hfirst : ∀ n p a, numbered? ps n = some p → ⟨n, 0⟩ ∈ closure ps kernel → P p.key →
      p.first = .nonterminal a → P a)
    {n : Nat} {p : Production} (hp : numbered? ps n = some p) (hi : ⟨n, 0⟩ ∈ closure ps kernel)
    (hn : ⟨n, 0⟩ ∉ kernel) :
    P p.key ∧ ∃ i ∈ closure ps kernel, i.next? ps = some (.nonterminal p.key) := by
  have hexpanded : ∀ a ∈ expanded ps kernel,
      P a ∧ ∃ i ∈ closure ps kernel, i.next? ps = some (.nonterminal a) := by
    refine saturate_invariant (fun keys hkeys a ha => ?_) _ fun a ha => ?_
    · obtain ⟨q, hq, hkey, ha⟩ := mem_expandStep.mp ha
      obtain ⟨m, hm⟩ := exists_numbered_of_mem hq
      obtain ⟨hP, i, hi, hnext⟩ := hkeys q.key hkey
      have hmem := closed_closure kernel i hi q.key hnext m q hm rfl
      have hx := Sym.nonterminal?_eq_some.mp ha
      exact ⟨hfirst m q a hm hmem hP hx, _, hmem, (next_undotted hm).trans (congrArg some hx)⟩
    · obtain ⟨i, hi, hnext⟩ := List.mem_filterMap.mp ha
      obtain ⟨x, hx, ha⟩ := Option.bind_eq_some_iff.mp hnext
      obtain rfl := Sym.nonterminal?_eq_some.mp ha
      exact ⟨hkernel i hi a hx, i, hsub hi, hx⟩
  obtain ⟨_, hi | ⟨_, _, hkey⟩⟩ := mem_closure.mp hi
  · exact absurd hi hn
  · rw [keyOf_of_numbered hp] at hkey
    exact hexpanded _ hkey

theorem closure_sublist (kernel : List Item) : (closure ps kernel).Sublist (items ps) :=
  List.filter_sublist

/-! ## The item sets of the automaton -/

theorem zero_mem_startSet : ⟨0, 0⟩ ∈ startSet ps :=
  mem_closure.mpr ⟨mem_items.mpr ⟨Nat.zero_le _, Nat.zero_le _⟩, Or.inl (by simp)⟩

/-- Nothing has been seen in the first item set. -/
theorem mem_startSet_dot {i : Item} (h : i ∈ startSet ps) : i.dot = 0 := by
  rcases mem_kernel_or_undotted h with h | ⟨h, _⟩
  · rw [List.mem_singleton.mp h]
  · exact h

theorem mem_advance_of_next {set : ItemSet} {i : Item} {x : Sym} (hi : i ∈ set)
    (hnext : i.next? ps = some x) : i.advance ∈ advance ps set x := by
  refine mem_closure.mpr ⟨advance_mem_items hnext, Or.inl (List.mem_map.mpr ⟨i, ?_, rfl⟩)⟩
  simp [hi, hnext]

/-- Where an item of `advance` comes from: it saw the symbol, or its production is not begun. -/
theorem of_mem_advance {set : ItemSet} {j : Item} {x : Sym} (h : j ∈ advance ps set x) :
    (∃ i ∈ set, i.next? ps = some x ∧ i.advance = j) ∨ j.dot = 0 ∧ j.production ≠ 0 := by
  rcases mem_kernel_or_undotted h with h | h
  · obtain ⟨i, hi, rfl⟩ := List.mem_map.mp h
    obtain ⟨hi, hnext⟩ := List.mem_filter.mp hi
    exact Or.inl ⟨i, hi, by simpa using hnext, rfl⟩
  · exact Or.inr h

/-- **The dotted items behind a symbol** are those of the items that saw it. -/
theorem mem_advance_iff {set : ItemSet} {n d : Nat} {x : Sym} :
    ⟨n, d + 1⟩ ∈ advance ps set x ↔ ⟨n, d⟩ ∈ set ∧ (Item.mk n d).next? ps = some x := by
  constructor
  · intro h
    rcases of_mem_advance h with ⟨⟨m, e⟩, hi, hnext, heq⟩ | ⟨h, _⟩
    · simp only [Item.advance, Item.mk.injEq, Nat.add_right_cancel_iff] at heq
      obtain ⟨rfl, rfl⟩ := heq
      exact ⟨hi, hnext⟩
    · exact absurd h (Nat.succ_ne_zero d)
  · rintro ⟨hi, hnext⟩
    exact mem_advance_of_next hi hnext

theorem zero_not_mem_advance (set : ItemSet) (x : Sym) : ⟨0, 0⟩ ∉ advance ps set x := by
  intro h
  rcases of_mem_advance h with ⟨i, _, _, heq⟩ | ⟨_, h⟩
  · simp [Item.advance] at heq
  · exact h rfl

theorem mem_nextSymbols {set : ItemSet} {x : Sym} :
    x ∈ nextSymbols ps set ↔ ∃ i ∈ set, i.next? ps = some x := by
  simp [nextSymbols, List.mem_eraseDups]

/-- A symbol behind a dot is in the body of a production, or the start key. -/
theorem mem_body_of_next {i : Item} {x : Sym} (h : i.next? ps = some x) :
    x = .nonterminal (startKey ps) ∨ ∃ p ∈ ps, x ∈ p.body := by
  have hmem : x ∈ bodyOf ps i.production := List.mem_of_getElem? h
  by_cases h0 : i.production = 0
  · rw [h0] at hmem
    exact Or.inl (List.mem_singleton.mp hmem)
  · obtain ⟨p, hp⟩ := exists_numbered h0 (production_le_of_next h)
    rw [bodyOf_of_numbered hp] at hmem
    exact Or.inr ⟨p, mem_of_numbered hp, hmem⟩

end PixQuery.Grammar
