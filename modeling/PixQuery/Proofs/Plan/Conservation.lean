import Mathlib.Data.List.Induction
import PixQuery.Proofs.Plan.Groups

/-!
# Planning loses nothing

The clauses about names are put into groups one by one. What the groups hold at any time is settled
by the clauses read so far: a group for each kind among them, in the order in which the kinds first
appear, and in each group the clauses of its kind, in their order. One more clause keeps this, so it
holds of the plan.

Results:
* `Plan.Conserves.addItem`: one more clause keeps what the groups say about the clauses.
* `Plan.itemCount_ofMeaning`: a plan has as many items as there are clauses.
* `Meaning.plan_conserves`: a meaning always has a plan, which holds all of it, and is warned of for
  its size alone.
-/

namespace PixQuery

namespace Plan

/-! ## One more item -/

/-- An item joins the only group of its kind. -/
theorem exists_addItem_of_mem {kind : ElementKind} {i : ElementItem} : ∀ {gs : List ElementGroup},
    (gs.map ElementGroup.kind).Nodup → kind ∈ gs.map ElementGroup.kind →
      ∃ before items after, gs = before ++ ⟨kind, items⟩ :: after ∧
        kind ∉ (before ++ after).map ElementGroup.kind ∧
        addItem kind i gs = before ++ ⟨kind, items ++ [i]⟩ :: after
  | [], _, h => by cases h
  | g :: gs, hnodup, h => by
    obtain ⟨hnot, hnodup⟩ := List.nodup_cons.mp hnodup
    by_cases hkind : g.kind = kind
    · subst hkind
      exact ⟨[], g.items, gs, rfl, hnot, if_pos rfl⟩
    · have hmem := (List.mem_cons.mp h).resolve_left (Ne.symm hkind)
      obtain ⟨before, items, after, rfl, hout, hadd⟩ := exists_addItem_of_mem hnodup hmem
      refine ⟨g :: before, items, after, rfl, ?_, ?_⟩
      · rw [List.cons_append, List.map_cons, List.mem_cons, not_or]
        exact ⟨Ne.symm hkind, hout⟩
      · rw [addItem, if_neg hkind, hadd]
        rfl

theorem length_items_addItem (kind : ElementKind) (i : ElementItem) : ∀ gs : List ElementGroup,
    ((addItem kind i gs).flatMap ElementGroup.items).length =
      (gs.flatMap ElementGroup.items).length + 1
  | [] => rfl
  | g :: gs => by
    rw [addItem]
    split
    · simp only [List.flatMap_cons, List.length_append, List.length_singleton]
      omega
    · simp only [List.flatMap_cons, List.length_append, length_items_addItem kind i gs]
      omega

/-! ## What the groups say about the clauses -/

/-- **The groups hold the clauses**: one group for each kind, in the order in which the kinds first
appear, and in it the clauses of the kind. -/
structure Conserves (clauses : List ElementClause) (gs : List ElementGroup) : Prop where
  kinds : gs.map ElementGroup.kind = (clauses.map ElementClause.kind).eraseDups
  items : ∀ g ∈ gs, g.items = (clauses.filter fun c => c.kind = g.kind).map item

variable {clauses : List ElementClause} {gs : List ElementGroup}

theorem Conserves.mem_kinds (h : Conserves clauses gs) {kind : ElementKind} :
    kind ∈ gs.map ElementGroup.kind ↔ kind ∈ clauses.map ElementClause.kind := by
  rw [h.kinds, List.mem_eraseDups]

/-- A clause of another kind changes nothing for a group. -/
theorem items_concat_of_ne {k : ElementKind} {c : ElementClause} (hne : k ≠ c.kind) :
    ((clauses ++ [c]).filter fun d => d.kind = k).map item =
      (clauses.filter fun d => d.kind = k).map item := by
  simp [List.filter_append, Ne.symm hne]

theorem items_concat_self (c : ElementClause) :
    ((clauses ++ [c]).filter fun d => d.kind = c.kind).map item =
      (clauses.filter fun d => d.kind = c.kind).map item ++ [item c] := by
  simp [List.filter_append]

/-- **One more clause** is found in the groups, behind those of its kind. -/
theorem Conserves.addItem (h : Conserves clauses gs) (hnodup : (gs.map ElementGroup.kind).Nodup)
    (c : ElementClause) : Conserves (clauses ++ [c]) (addItem c.kind (item c) gs) := by
  have hkinds : ((clauses ++ [c]).map ElementClause.kind).eraseDups =
      gs.map ElementGroup.kind ++
        ([c.kind].removeAll (clauses.map ElementClause.kind)).eraseDups := by
    rw [List.map_append, List.eraseDups_append, h.kinds]
    rfl
  by_cases hmem : c.kind ∈ gs.map ElementGroup.kind
  · obtain ⟨before, items, after, rfl, hout, hadd⟩ :=
      exists_addItem_of_mem (i := item c) hnodup hmem
    have hold : [c.kind].removeAll (clauses.map ElementClause.kind) = [] := by
      simpa [List.removeAll] using h.mem_kinds.mp hmem
    rw [hold] at hkinds
    rw [hadd]
    refine ⟨by simpa using hkinds.symm, fun g hg => ?_⟩
    rcases List.mem_append.mp hg with hg | hg
    · have hne : g.kind ≠ c.kind := fun heq => hout <| heq ▸
        List.mem_map_of_mem (List.mem_append_left after hg)
      rw [items_concat_of_ne hne, h.items g (List.mem_append_left _ hg)]
    · rcases List.mem_cons.mp hg with rfl | hg
      · have hitems := h.items ⟨c.kind, items⟩ (by simp)
        rw [items_concat_self, ← hitems]
      · have hne : g.kind ≠ c.kind := fun heq => hout <| heq ▸
          List.mem_map_of_mem (List.mem_append_right before hg)
        rw [items_concat_of_ne hne,
          h.items g (List.mem_append_right _ (List.mem_cons_of_mem _ hg))]
  · have hnew : [c.kind].removeAll (clauses.map ElementClause.kind) = [c.kind] := by
      refine List.filter_eq_self.mpr fun k hk => ?_
      obtain rfl := List.mem_singleton.mp hk
      simpa using fun d hd heq => hmem (h.mem_kinds.mpr (List.mem_map.mpr ⟨d, hd, heq⟩))
    have hnone : (clauses.filter fun d => d.kind = c.kind) = [] := by
      refine List.filter_eq_nil_iff.mpr fun d hd heq => hmem (h.mem_kinds.mpr ?_)
      exact (of_decide_eq_true heq) ▸ List.mem_map_of_mem hd
    rw [hnew, List.eraseDups_cons, List.filter_nil, List.eraseDups_nil] at hkinds
    rw [addItem_of_not_mem hmem]
    refine ⟨by simpa using hkinds.symm, fun g hg => ?_⟩
    rcases List.mem_append.mp hg with hg | hg
    · have hne : g.kind ≠ c.kind := fun heq => hmem (heq ▸ List.mem_map_of_mem hg)
      rw [items_concat_of_ne hne, h.items g hg]
    · obtain rfl := List.mem_singleton.mp hg
      rw [items_concat_self, hnone]
      rfl

theorem groups_concat (clauses : List ElementClause) (c : ElementClause) :
    groups (clauses ++ [c]) = Plan.addItem c.kind (item c) (groups clauses) := by
  simp [groups]

theorem nodup_kinds_groups (clauses : List ElementClause) :
    ((groups clauses).map ElementGroup.kind).Nodup :=
  (isGrouped_groups (Q := fun _ _ => True) fun _ _ => trivial).kinds

/-- **The groups of some clauses hold them.** -/
theorem conserves_groups (clauses : List ElementClause) : Conserves clauses (groups clauses) := by
  induction clauses using List.reverseRecOn with
  | nil => exact ⟨rfl, fun _ hg => by cases hg⟩
  | append_singleton clauses c ih =>
    rw [groups_concat]
    exact ih.addItem (nodup_kinds_groups clauses) c

/-- The groups have as many items as there are clauses. -/
theorem length_items_groups (clauses : List ElementClause) :
    ((groups clauses).flatMap ElementGroup.items).length = clauses.length := by
  induction clauses using List.reverseRecOn with
  | nil => rfl
  | append_singleton clauses c ih =>
    rw [groups_concat, length_items_addItem, ih, List.length_append, List.length_singleton]

/-- **A plan has as many items about names as there are clauses.** -/
theorem itemCount_ofMeaning (m : Meaning) : (ofMeaning m).itemCount = m.elements.length :=
  length_items_groups m.elements

/-! ## Warnings -/

/-- The warning about a clause with more members than `n`. It is called by its first one. -/
def largeUnion (n : Nat) (c : ElementClause) : PlanningFault :=
  .largeUnion ((c.union.head?.map ElementValue.label).getD "") c.union.length n c.range

/-- The warnings about clauses with more members than the limit, when there is one. -/
def unionWarnings (limit : Option Nat) (clauses : List ElementClause) : List PlanningFault :=
  limit.toList.flatMap fun n => (clauses.filter fun c => n < c.union.length).map (largeUnion n)

/-- The warning about more clauses than the limit, when there is one. -/
def intersectionWarnings (limit : Option Nat) (clauses : List ElementClause) :
    List PlanningFault :=
  (limit.toList.filter fun n => n < clauses.length).map fun n =>
    .largeIntersection clauses.length n

theorem filterMap_unionWarning? (limit : Option Nat) (clauses : List ElementClause) :
    clauses.filterMap (unionWarning? limit) = unionWarnings limit clauses := by
  cases limit with
  | none => exact List.filterMap_eq_nil_iff.mpr fun _ _ => rfl
  | some n =>
    simp only [unionWarnings, Option.toList_some, List.flatMap_singleton]
    induction clauses with
    | nil => rfl
    | cons c clauses ih =>
      by_cases h : n < c.union.length
      · simpa [unionWarning?, h, largeUnion] using ih
      · simpa [unionWarning?, h] using ih

theorem intersectionWarning?_toList (limit : Option Nat) (m : Meaning) :
    (intersectionWarning? limit (ofMeaning m)).toList = intersectionWarnings limit m.elements := by
  cases limit with
  | none => rfl
  | some n =>
    by_cases h : n < m.elements.length
    · simp [intersectionWarning?, intersectionWarnings, itemCount_ofMeaning, h]
    · simp [intersectionWarning?, intersectionWarnings, itemCount_ofMeaning, h]

end Plan

open Plan (unionWarnings intersectionWarnings)

/-- **Planning conserves a meaning.** There is always a plan, and no error. It has the sort keys and
the clauses about fields in their order. Its groups are of different kinds, in the order in which
the kinds first appear, and a group has the clauses of its kind, in their order. The warnings are
one 4001 for each clause with more members than the limit, and behind them one 4002 when there are
more clauses than the limit; where a limit is cleared there are none of its kind. -/
theorem Meaning.plan_conserves (options : CompilerOptions) (m : Meaning) :
    ∃ p, (m.plan options).result = some p ∧ (m.plan options).errors = [] ∧
      p.sorts = m.sorts ∧ p.filters = m.filters.map (fun c => ⟨c.exclude, c.union⟩) ∧
      (p.elements.map ElementGroup.kind).Nodup ∧
      p.elements.map ElementGroup.kind = (m.elements.map ElementClause.kind).eraseDups ∧
      (∀ g ∈ p.elements, g.items =
        (m.elements.filter fun c => c.kind = g.kind).map fun c => ⟨c.exclude, c.union⟩) ∧
      (m.plan options).warnings = unionWarnings options.unionWarningLimit m.elements ++
        intersectionWarnings options.intersectionWarningLimit m.elements ∧
      (∀ w ∈ unionWarnings options.unionWarningLimit m.elements, w.code = 4001) ∧
      ∀ w ∈ intersectionWarnings options.intersectionWarningLimit m.elements, w.code = 4002 := by
  have hgroups := Plan.conserves_groups m.elements
  refine ⟨.ofMeaning m, rfl, rfl, rfl, rfl, Plan.nodup_kinds_groups _,
    hgroups.kinds, hgroups.items, ?_, fun w hw => ?_, fun w hw => ?_⟩
  · rw [Meaning.plan, Plan.filterMap_unionWarning?, Plan.intersectionWarning?_toList]
  · obtain ⟨n, _, hw⟩ := List.mem_flatMap.mp hw
    obtain ⟨c, _, rfl⟩ := List.mem_map.mp hw
    rfl
  · obtain ⟨n, _, rfl⟩ := List.mem_map.mp hw
    rfl

end PixQuery
