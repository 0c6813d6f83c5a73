import PixQuery.Proofs.Grammar.Table

/-!
# Grammars without conflicts

That a grammar is accepted can be seen without building its table. It is enough to walk through
kernels of its item sets and to look at each set once: where a complete item stands, no token may be
read before which it is applied. The sets may be too large, and so may the pairs for follow, as long
as nothing is missing from them. So the walk is through outlines of the productions, in which names
are numbers; two names with one number would only make the sets larger.

Results:
* `exists_of_walk`: a walk that ends well has met a family of kernels that is closed under steps.
* `closure_subset_cover`: what is found with outlines holds the closures of the productions.
* `exists_ofProductions`: a grammar whose covers are all calm has a table.
-/

namespace PixQuery.Grammar

variable {ps : List Production} {follow : List (String × String)} {names : List String}

/-! ## Walking through what can be reached -/

section Walk

variable {α : Type} [BEq α] [LawfulBEq α] {succ? : α → Option (List α)}

/-- Whether `succ?` knows the successors of all that is reached from `todo`; what is in `seen` need
not be looked at again. -/
def walk (succ? : α → Option (List α)) : (rounds : Nat) → (seen todo : List α) → Bool
  | 0, _, _ => false
  | _ + 1, _, [] => true
  | n + 1, seen, a :: todo =>
    match succ? a with
    | none => false
    | some next =>
      let new := next.filter fun b => !seen.contains b
      walk succ? n (seen ++ new) (todo ++ new)

/-- The successors of all of `as` are known, and in `seen`. -/
def Settled (succ? : α → Option (List α)) (seen : List α) (a : α) : Prop :=
  ∃ next, succ? a = some next ∧ next ⊆ seen

/-- The invariant of the walk is that what has been seen is settled or still to do. -/
theorem exists_of_walk : ∀ (n : Nat) (seen todo : List α), walk succ? n seen todo = true →
    (∀ a ∈ seen, a ∈ todo ∨ Settled succ? seen a) →
      ∃ reached, seen ⊆ reached ∧ ∀ a ∈ reached, Settled succ? reached a
  | 0, _, _, h, _ => by simp [walk] at h
  | _ + 1, seen, [], _, hseen =>
    ⟨seen, List.Subset.refl _, fun a ha => (hseen a ha).resolve_left List.not_mem_nil⟩
  | n + 1, seen, a :: todo, h, hseen => by
    rw [walk] at h
    split at h
    · simp at h
    · rename_i next hnext
      have hsub : next ⊆ seen ++ next.filter fun b => !seen.contains b := by
        intro b hb
        by_cases hold : b ∈ seen
        · exact List.mem_append_left _ hold
        · exact List.mem_append_right _ (List.mem_filter.mpr ⟨hb, by simpa using hold⟩)
      obtain ⟨reached, hreached, hsettled⟩ := exists_of_walk n _ _ h fun b hb => by
        rcases List.mem_append.mp hb with hb | hb
        · rcases hseen b hb with hb | ⟨next', hnext', hsub'⟩
          · rcases List.mem_cons.mp hb with rfl | hb
            · exact Or.inr ⟨next, hnext, hsub⟩
            · exact Or.inl (List.mem_append_left _ hb)
          · exact Or.inr ⟨next', hnext', fun c hc => List.mem_append_left _ (hsub' hc)⟩
        · exact Or.inl (List.mem_append_right _ hb)
      exact ⟨reached, fun b hb => hreached (List.mem_append_left _ hb), hsettled⟩

end Walk

/-! ## Outlines -/

/-- A symbol with a number for its name. -/
inductive Figure where
  | terminal (name : Nat)
  | nonterminal (name : Nat)
  deriving DecidableEq

/-- A production with numbers for the names. -/
structure Outline where
  key : Nat
  body : List Figure

/-- A symbol with the place of its name for the name. -/
def figureOf (names : List String) : Sym → Figure
  | .terminal t => .terminal (names.idxOf t)
  | .nonterminal a => .nonterminal (names.idxOf a)

/-- The productions by number, the added one first, with the places of their names for the names. -/
def outlines (names : List String) (ps : List Production) : List Outline :=
  (List.range (ps.length + 1)).map fun n =>
    ⟨names.idxOf (keyOf ps n), (bodyOf ps n).map (figureOf names)⟩

/-- The places of the names in some pairs; the end stands behind the added production. -/
def outlinePairs (names : List String) (pairs : List (String × String)) : List (Nat × Nat) :=
  (("", eof) :: pairs).map fun p => (names.idxOf p.1, names.idxOf p.2)

namespace Outline

/-- The symbol behind the dot. -/
def next? (os : List Outline) (i : Item) : Option Figure :=
  os[i.production]?.bind fun o => o.body[i.dot]?

/-- The dot stands behind the whole body. -/
def isComplete (os : List Outline) (i : Item) : Bool :=
  os[i.production]?.all fun o => o.body.length ≤ i.dot

/-- The undotted productions of a nonterminal. -/
def undotted (os : List Outline) (a : Nat) : List Item :=
  os.zipIdx.filterMap fun o => if o.1.key = a then some ⟨o.2, 0⟩ else none

/-- The undotted productions behind the dots of some items. -/
def openings (os : List Outline) (set : List Item) : List Item :=
  set.flatMap fun i =>
    match next? os i with
    | some (.nonterminal a) => undotted os a
    | some (.terminal _) | none => []

/-- The items and all undotted productions that may begin behind one of their dots. -/
def cover (os : List Outline) (kernel : List Item) : List Item :=
  saturate (openings os) os.length kernel

/-- The items that have seen a symbol. -/
def seen (os : List Outline) (set : List Item) (x : Figure) : List Item :=
  (set.filter fun i => next? os i = some x).map Item.advance

/-- At most one item of the set is complete, and it does nothing before a token that can be read. -/
def isCalm (os : List Outline) (follow : List (Nat × Nat)) (set : List Item) : Bool :=
  match set.filter (isComplete os) with
  | [] => true
  | [i] => set.all fun j =>
    match next? os j with
    | some (.terminal t) => os[i.production]?.all fun o => !follow.contains (o.key, t)
    | some (.nonterminal _) | none => true
  | _ :: _ :: _ => false

/-- The kernels of what a calm cover leads to, by the kernel of that cover. -/
def kernelsAfter? (os : List Outline) (follow : List (Nat × Nat)) (kernel : List Item) :
    Option (List (List Item)) :=
  let set := cover os kernel
  if isCalm os follow set then some ((set.filterMap (next? os)).eraseDups.map (seen os set))
  else none

end Outline

open Outline (cover)

theorem outlines_getElem? {n : Nat} (h : n ≤ ps.length) : (outlines names ps)[n]? =
    some ⟨names.idxOf (keyOf ps n), (bodyOf ps n).map (figureOf names)⟩ := by
  rw [outlines, List.getElem?_map, List.getElem?_range (Nat.lt_succ_of_le h)]
  rfl

theorem next?_outlines {i : Item} {x : Sym} (h : i.next? ps = some x) :
    Outline.next? (outlines names ps) i = some (figureOf names x) := by
  rw [Outline.next?, outlines_getElem? (production_le_of_next h), Option.bind_some,
    List.getElem?_map]
  exact congrArg (Option.map _) h

theorem isComplete_outlines {i : Item} (hi : i ∈ items ps) :
    Outline.isComplete (outlines names ps) i = i.isComplete ps := by
  rw [Outline.isComplete, outlines_getElem? (mem_items.mp hi).1, Option.all_some, List.length_map]
  rfl

theorem mem_undotted {n : Nat} {p : Production} (hp : numbered? ps n = some p) :
    ⟨n, 0⟩ ∈ Outline.undotted (outlines names ps) (names.idxOf p.key) := by
  refine List.mem_filterMap.mpr
    ⟨(_, n), List.mk_mem_zipIdx_iff_getElem?.mpr (outlines_getElem? (le_length_of_numbered hp)), ?_⟩
  rw [keyOf_of_numbered hp]
  exact if_pos rfl

/-- A cover holds the undotted productions of every nonterminal behind a dot. -/
theorem undotted_subset_cover {os : List Outline} {kernel : List Item} {i : Item} {a : Nat}
    (hi : i ∈ cover os kernel) (hnext : Outline.next? os i = some (.nonterminal a)) :
    Outline.undotted os a ⊆ cover os kernel := by
  have hstocked : Stocked (Outline.openings os) (fun _ => True)
      ((List.range os.length).map fun n => ⟨n, 0⟩) := by
    refine ⟨fun set _ j hj => ?_, fun _ _ => trivial⟩
    obtain ⟨i, _, hj⟩ := List.mem_flatMap.mp hj
    split at hj
    · obtain ⟨⟨o, n⟩, ho, hj⟩ := List.mem_filterMap.mp hj
      have hlt := (List.getElem?_eq_some_iff.mp (List.mk_mem_zipIdx_iff_getElem?.mp ho)).1
      split at hj
      · obtain rfl := Option.some.inj hj
        exact List.mem_map.mpr ⟨n, List.mem_range.mpr hlt, rfl⟩
      · cases hj
    all_goals exact absurd hj List.not_mem_nil
  have hrounds := missing_le_length ((List.range os.length).map fun n => Item.mk n 0) kernel
  rw [List.length_map, List.length_range] at hrounds
  intro j hj
  refine saturate_closed hstocked os.length kernel (fun _ _ => trivial) hrounds j ?_
  refine List.mem_flatMap.mpr ⟨i, hi, ?_⟩
  rw [hnext]
  exact hj

/-- **A cover holds the closure** of the items that it is a cover of. -/
theorem closure_subset_cover {kernel kernel' : List Item} (h : kernel ⊆ kernel') :
    closure ps kernel ⊆ cover (outlines names ps) kernel' := by
  have hkernel : kernel ⊆ cover (outlines names ps) kernel' := fun i hi =>
    mem_saturate_of_mem _ (h hi)
  have hopen : ∀ {i a}, i ∈ cover (outlines names ps) kernel' →
      i.next? ps = some (.nonterminal a) → ∀ n p, numbered? ps n = some p → p.key = a →
        ⟨n, 0⟩ ∈ cover (outlines names ps) kernel' := by
    rintro i _ hi hnext n p hp rfl
    exact undotted_subset_cover hi (next?_outlines hnext) (mem_undotted hp)
  have hexpanded : ∀ a ∈ expanded ps kernel, ∀ n p, numbered? ps n = some p → p.key = a →
      ⟨n, 0⟩ ∈ cover (outlines names ps) kernel' := by
    refine saturate_invariant (fun keys hkeys a ha => ?_) _ fun a ha => ?_
    · obtain ⟨q, hq, hkey, hfirst⟩ := mem_expandStep.mp ha
      obtain ⟨m, hm⟩ := exists_numbered_of_mem hq
      exact hopen (hkeys q.key hkey m q hm rfl)
        ((next_undotted hm).trans (congrArg some (Sym.nonterminal?_eq_some.mp hfirst)))
    · obtain ⟨i, hi, hnext⟩ := List.mem_filterMap.mp ha
      obtain ⟨x, hx, ha⟩ := Option.bind_eq_some_iff.mp hnext
      obtain rfl := Sym.nonterminal?_eq_some.mp ha
      exact hopen (hkernel hi) hx
  intro i hi
  obtain ⟨hitems, hi | ⟨hdot, hne, hkey⟩⟩ := mem_closure.mp hi
  · exact hkernel hi
  · obtain ⟨p, hp⟩ := exists_numbered hne (mem_items.mp hitems).1
    rw [keyOf_of_numbered hp] at hkey
    obtain ⟨n, d⟩ := i
    obtain rfl : d = 0 := hdot
    exact hexpanded _ hkey n p hp rfl

/-- What an item set leads to is in the cover of what its own cover leads to. -/
theorem advance_subset_cover {set cov : List Item} (h : set ⊆ cov) (x : Sym) :
    advance ps set x ⊆
      cover (outlines names ps) (Outline.seen (outlines names ps) cov (figureOf names x)) := by
  refine closure_subset_cover fun j hj => ?_
  obtain ⟨i, hi, rfl⟩ := List.mem_map.mp hj
  obtain ⟨hi, hnext⟩ := List.mem_filter.mp hi
  refine List.mem_map.mpr ⟨i, List.mem_filter.mpr ⟨h hi, ?_⟩, rfl⟩
  simpa using next?_outlines (by simpa using hnext)

/-! ## Calm states -/

variable (names) in
theorem completion?_eq_none (hfollow : followPairs ps ⊆ follow) {t : String} {i : Item}
    (h : (names.idxOf (keyOf ps i.production), names.idxOf t) ∉ outlinePairs names follow) :
    completion? ps (followPairs ps) t i = none := by
  unfold completion?
  split
  · rename_i h0
    rw [h0] at h
    refine if_neg ?_
    rintro rfl
    exact h (List.mem_map.mpr ⟨_, List.mem_cons_self, rfl⟩)
  · refine if_neg fun hpair => h ?_
    have hmem := hfollow (List.contains_iff_mem.mp hpair)
    exact List.mem_map.mpr ⟨_, List.mem_cons_of_mem _ hmem, rfl⟩

/-- A state reads a token in one way. -/
theorem length_shifts_le {out : List Edge} (h : (out.map Edge.symbol).Nodup) (t : String) :
    (shifts out t).length ≤ 1 := by
  induction out with
  | nil => exact Nat.zero_le _
  | cons e out ih =>
    obtain ⟨hnot, hnodup⟩ := List.nodup_cons.mp h
    by_cases he : e.symbol = .terminal t
    · have hnone : shifts out t = [] := by
        refine List.filterMap_eq_nil_iff.mpr fun e' he' => if_neg fun heq => hnot ?_
        exact List.mem_map.mpr ⟨e', he', heq.trans he.symm⟩
      simp only [shifts] at hnone
      simp [shifts, he, hnone]
    · simpa [shifts, he] using ih hnodup

theorem nodup_items : (items ps).Nodup := by
  refine List.nodup_flatMap.mpr ⟨fun n _ => ?_, List.nodup_range.imp fun {m n} hne => ?_⟩
  · exact List.nodup_range.map fun d e h => (Item.mk.inj h).2
  · intro i hi hi'
    obtain ⟨d, _, rfl⟩ := List.mem_map.mp hi
    obtain ⟨e, _, heq⟩ := List.mem_map.mp hi'
    exact hne (Item.mk.inj heq).1.symm

variable (names) in
/-- The complete items of a state are complete in its cover. -/
theorem complete_subset {k : Nat} {set cov : ItemSet} (hset : stateAt? ps k = some set)
    (h : set ⊆ cov) : (set.filter fun i => i.isComplete ps) ⊆
      cov.filter (Outline.isComplete (outlines names ps)) := by
  intro i hi
  obtain ⟨hi, hcomplete⟩ := List.mem_filter.mp hi
  refine List.mem_filter.mpr ⟨h hi, ?_⟩
  rw [isComplete_outlines (mem_items_of_stateAt hset hi)]
  exact hcomplete

/-- **Nothing competes in a state with a calm cover.** -/
theorem length_cellAt_of_isCalm (hfollow : followPairs ps ⊆ follow) {k : Nat}
    {set cov : ItemSet} {out : List Edge} (hset : stateAt? ps k = some set)
    (hout : (automaton ps).edges[k]? = some out) (hcov : set ⊆ cov)
    (h : Outline.isCalm (outlines names ps) (outlinePairs names follow) cov = true) (t : String) :
    (cellAt ps set out t).length ≤ 1 := by
  have hshifts := length_shifts_le (nodup_symbols hset hout) t
  have hsub := complete_subset names hset hcov
  have hnodup := (nodup_of_stateAt hset nodup_items).filter fun i => i.isComplete ps
  unfold cellAt competing
  unfold Outline.isCalm at h
  split at h
  · rename_i hnone
    rw [hnone, List.subset_nil] at hsub
    rw [hsub, List.filterMap_nil, List.append_nil]
    exact hshifts
  · rename_i i hone
    rw [hone] at hsub
    have hlen := (List.subperm_of_subset hnodup hsub).length_le
    cases hread : shifts out t with
    | nil => exact Nat.le_trans (List.length_filterMap_le _ _) hlen
    | cons a as =>
      obtain ⟨n, he, _⟩ := mem_shifts.mp (hread ▸ List.mem_cons_self (a := a) (l := as))
      have hx : .terminal t ∈ nextSymbols ps set :=
        (explored_automaton ps).1.symbols k set out hset hout ▸ List.mem_map.mpr ⟨_, he, rfl⟩
      obtain ⟨j, hj, hnext⟩ := mem_nextSymbols.mp hx
      have hquiet := List.all_eq_true.mp h j (hcov hj)
      rw [next?_outlines hnext] at hquiet
      have hnone : (set.filter fun i => i.isComplete ps).filterMap
          (completion? ps (followPairs ps) t) = [] := by
        refine List.filterMap_eq_nil_iff.mpr fun i' hi' =>
          completion?_eq_none names hfollow ?_
        obtain rfl := List.mem_singleton.mp (hsub hi')
        have hle := (mem_items.mp (mem_items_of_stateAt hset (List.mem_filter.mp hi').1)).1
        simpa [figureOf, outlines_getElem? hle] using hquiet
      rw [hnone, List.append_nil, ← hread]
      exact hshifts
  · cases h

/-! ## Grammars all of whose states are calm -/

/-- A walk through the kernels has covered all states. -/
theorem exists_cover_of_walk {n : Nat} (h : walk (Outline.kernelsAfter? (outlines names ps)
      (outlinePairs names follow)) n [[⟨0, 0⟩]] [[⟨0, 0⟩]] = true) :
    ∀ set ∈ (automaton ps).states, ∃ cov, set ⊆ cov ∧
      Outline.isCalm (outlines names ps) (outlinePairs names follow) cov = true := by
  obtain ⟨reached, hstart, hreached⟩ := exists_of_walk n _ _ h fun _ h => Or.inl h
  have hcalm : ∀ kernel ∈ reached,
      Outline.isCalm (outlines names ps) (outlinePairs names follow)
        (cover (outlines names ps) kernel) = true ∧
      ∀ i ∈ cover (outlines names ps) kernel, ∀ x, Outline.next? (outlines names ps) i = some x →
        Outline.seen (outlines names ps) (cover (outlines names ps) kernel) x ∈ reached := by
    intro kernel hkernel
    obtain ⟨next, hnext, hsub⟩ := hreached kernel hkernel
    simp only [Outline.kernelsAfter?] at hnext
    split at hnext
    · rename_i hcalm
      obtain rfl := Option.some.inj hnext
      refine ⟨hcalm, fun i hi x hx => hsub (List.mem_map.mpr ⟨x, ?_, rfl⟩)⟩
      exact List.mem_eraseDups.mpr (List.mem_filterMap.mpr ⟨i, hi, hx⟩)
    · cases hnext
  have hstates : ∀ set ∈ (automaton ps).states,
      ∃ kernel ∈ reached, set ⊆ cover (outlines names ps) kernel := by
    refine states_invariant
      ⟨_, hstart (List.mem_singleton.mpr rfl), closure_subset_cover (List.Subset.refl _)⟩ ?_
    rintro set ⟨kernel, hkernel, hsub⟩ x hx
    obtain ⟨i, hi, hnext⟩ := mem_nextSymbols.mp hx
    exact ⟨_, (hcalm kernel hkernel).2 i (hsub hi) _ (next?_outlines hnext),
      advance_subset_cover hsub x⟩
  intro set hset
  obtain ⟨kernel, hkernel, hsub⟩ := hstates set hset
  exact ⟨_, hsub, (hcalm kernel hkernel).1⟩

/-- A grammar whose cells hold an action at most is not refused. -/
theorem exists_ofProductions_of_cells
    (h : ∀ row ∈ cells ps (automaton ps), ∀ cell ∈ row, cell.length ≤ 1) :
    ∃ g, ofProductions ps = .ok g := by
  have hnone : (cells ps (automaton ps)).zipIdx.flatMap (rowConflicts (terminals ps)) = [] := by
    refine List.flatMap_eq_nil_iff.mpr fun row hrow => List.filterMap_eq_nil_iff.mpr fun c hc => ?_
    have hcell := h row.1 (List.fst_mem_of_mem_zipIdx hrow) c.1 (List.of_mem_zip hc).1
    exact if_neg (by omega)
  simp only [ofProductions, buildTable, hnone]
  exact ⟨_, rfl⟩

/-- **A grammar whose states all have calm covers** has a table. -/
theorem exists_ofProductions (hfollow : followPairs ps ⊆ follow) {n : Nat}
    (h : walk (Outline.kernelsAfter? (outlines names ps) (outlinePairs names follow)) n
      [[⟨0, 0⟩]] [[⟨0, 0⟩]] = true) :
    ∃ g, ofProductions ps = .ok g := by
  refine exists_ofProductions_of_cells fun row hrow cell hcell => ?_
  obtain ⟨k, hk⟩ := List.mem_iff_getElem?.mp hrow
  have hlt := (List.getElem?_eq_some_iff.mp hk).1
  simp only [cells, List.length_map, List.length_zip] at hlt
  have hset : stateAt? ps k = some (automaton ps).states[k] := List.getElem?_eq_getElem (by omega)
  have hout : (automaton ps).edges[k]? = some (automaton ps).edges[k] :=
    List.getElem?_eq_getElem (by omega)
  rw [cells_getElem? hset hout, Option.some.injEq] at hk
  obtain ⟨t, _, rfl⟩ := List.mem_map.mp (hk ▸ hcell)
  obtain ⟨cov, hcov, hcalm⟩ := exists_cover_of_walk h _ (List.mem_of_getElem? hset)
  exact length_cellAt_of_isCalm hfollow hset hout hcov hcalm t

end PixQuery.Grammar
