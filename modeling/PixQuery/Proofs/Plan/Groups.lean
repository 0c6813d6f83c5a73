import PixQuery.Compile
import PixQuery.Proofs.Meaning.Clauses

/-!
# Groups of clauses

A plan has one group for each kind of clause, in the order in which the kinds appear. So no two
groups are of one kind and none is empty, and groups of this form come back when their items are
grouped again.

Results:
* `Plan.foldl_flatMap_pairs`: the items of groups, one behind the other, are grouped as they were.
* `Plan.isTyped_ofMeaning`, `Compiler.isTyped_of_compile`: what a compiler gives is typed.
-/

namespace PixQuery

namespace ElementGroup

/-- The items of a group with their kind. -/
def pairs (g : ElementGroup) : List (ElementKind × ElementItem) := g.items.map fun i => (g.kind, i)

end ElementGroup

namespace Plan

/-- Items with their kinds, in groups. -/
def addPair (gs : List ElementGroup) (pair : ElementKind × ElementItem) : List ElementGroup :=
  addItem pair.1 pair.2 gs

theorem groups_eq_foldl (clauses : List ElementClause) :
    groups clauses = (clauses.map fun c => (c.kind, item c)).foldl addPair [] := by
  rw [groups, List.foldl_map]
  rfl

theorem addItem_of_not_mem {kind : ElementKind} {i : ElementItem} : ∀ {gs : List ElementGroup},
    kind ∉ gs.map ElementGroup.kind → addItem kind i gs = gs ++ [⟨kind, [i]⟩]
  | [], _ => rfl
  | g :: gs, h => by
    rw [List.map_cons, List.mem_cons, not_or] at h
    rw [addItem, if_neg (Ne.symm h.1), addItem_of_not_mem h.2, List.cons_append]

theorem addItem_of_last {kind : ElementKind} {i : ElementItem} {is : List ElementItem} :
    ∀ {gs : List ElementGroup}, kind ∉ gs.map ElementGroup.kind →
      addItem kind i (gs ++ [⟨kind, is⟩]) = gs ++ [⟨kind, is ++ [i]⟩]
  | [], _ => if_pos rfl
  | g :: gs, h => by
    rw [List.map_cons, List.mem_cons, not_or] at h
    rw [List.cons_append, addItem, if_neg (Ne.symm h.1), addItem_of_last h.2, List.cons_append]

/-- The items of one more kind make one more group. -/
theorem foldl_pairs {gs : List ElementGroup} {g : ElementGroup} (hne : g.items ≠ [])
    (hkind : g.kind ∉ gs.map ElementGroup.kind) : g.pairs.foldl addPair gs = gs ++ [g] := by
  obtain ⟨kind, items⟩ := g
  have hrest : ∀ is done : List ElementItem,
      (is.map fun i => (kind, i)).foldl addPair (gs ++ [⟨kind, done⟩]) =
        gs ++ [⟨kind, done ++ is⟩] := by
    intro is
    induction is with
    | nil => exact fun done => by rw [List.append_nil]; rfl
    | cons i is ih =>
      intro done
      rw [List.map_cons, List.foldl_cons, addPair, addItem_of_last hkind, ih, List.append_assoc]
      rfl
  obtain ⟨i, is, rfl⟩ := List.exists_cons_of_ne_nil hne
  rw [ElementGroup.pairs, List.map_cons, List.foldl_cons, addPair, addItem_of_not_mem hkind, hrest]
  rfl

/-- **Items are grouped as they were**, if no two groups were of one kind and none was empty. -/
theorem foldl_flatMap_pairs {gs : List ElementGroup} (hkinds : (gs.map ElementGroup.kind).Nodup)
    (hitems : ∀ g ∈ gs, g.items ≠ []) : (gs.flatMap ElementGroup.pairs).foldl addPair [] = gs := by
  have hfold : ∀ gs done : List ElementGroup, (∀ g ∈ gs, g.items ≠ []) →
      ((done ++ gs).map ElementGroup.kind).Nodup →
        (gs.flatMap ElementGroup.pairs).foldl addPair done = done ++ gs := by
    intro gs
    induction gs with
    | nil => exact fun done _ _ => (List.append_nil done).symm
    | cons g gs ih =>
      intro done hitems hkinds
      have hkind : g.kind ∉ done.map ElementGroup.kind := fun hmem => by
        rw [List.map_append, List.map_cons, List.nodup_append'] at hkinds
        exact hkinds.2.2 hmem List.mem_cons_self
      rw [List.flatMap_cons, List.foldl_append, foldl_pairs (hitems g List.mem_cons_self) hkind,
        ih _ (fun g' hg' => hitems g' (List.mem_cons_of_mem g hg')) (by simpa using hkinds),
        List.append_assoc, List.singleton_append]
  exact hfold gs [] hitems hkinds

/-! ## What groups hold -/

/-- No two groups are of one kind, none is empty, and all that is in them has a property. -/
structure IsGrouped (Q : ElementKind → ElementItem → Prop) (gs : List ElementGroup) : Prop where
  kinds : (gs.map ElementGroup.kind).Nodup
  items : ∀ g ∈ gs, g.items ≠ []
  holds : ∀ g ∈ gs, ∀ i ∈ g.items, Q g.kind i

theorem mem_kinds_addItem {kind k : ElementKind} {i : ElementItem} : ∀ {gs : List ElementGroup},
    k ∈ (addItem kind i gs).map ElementGroup.kind → k = kind ∨ k ∈ gs.map ElementGroup.kind
  | [], h => .inl (List.mem_singleton.mp h)
  | g :: gs, h => by
    rw [addItem] at h
    split at h
    · exact .inr h
    · rcases List.mem_cons.mp h with rfl | h
      · exact .inr List.mem_cons_self
      · exact (mem_kinds_addItem h).imp id (List.mem_cons_of_mem _)

theorem isGrouped_addItem {Q : ElementKind → ElementItem → Prop} {kind : ElementKind}
    {i : ElementItem} (hi : Q kind i) : ∀ {gs : List ElementGroup}, IsGrouped Q gs →
      IsGrouped Q (addItem kind i gs)
  | [], _ => by
    refine ⟨List.nodup_singleton _, fun g hg => ?_, fun g hg j hj => ?_⟩
    · obtain rfl := List.mem_singleton.mp hg
      exact List.cons_ne_nil i []
    · obtain rfl := List.mem_singleton.mp hg
      obtain rfl := List.mem_singleton.mp hj
      exact hi
  | g :: gs, ⟨hkinds, hitems, hholds⟩ => by
    have hkinds' := List.nodup_cons.mp hkinds
    rw [addItem]
    split
    · rename_i hkind
      refine ⟨hkinds, fun g' hg' => ?_, fun g' hg' j hj => ?_⟩
      · rcases List.mem_cons.mp hg' with rfl | hg'
        · exact List.append_ne_nil_of_right_ne_nil _ (List.cons_ne_nil i [])
        · exact hitems g' (List.mem_cons_of_mem g hg')
      · rcases List.mem_cons.mp hg' with rfl | hg'
        · rcases List.mem_append.mp hj with hj | hj
          · exact hholds g List.mem_cons_self j hj
          · obtain rfl := List.mem_singleton.mp hj
            exact hkind ▸ hi
        · exact hholds g' (List.mem_cons_of_mem g hg') j hj
    · rename_i hkind
      obtain ⟨hks, his, hhs⟩ := @isGrouped_addItem Q kind i hi gs ⟨hkinds'.2,
        fun g' hg' => hitems g' (List.mem_cons_of_mem g hg'),
        fun g' hg' => hholds g' (List.mem_cons_of_mem g hg')⟩
      refine ⟨List.nodup_cons.mpr ⟨fun hmem => ?_, hks⟩, fun g' hg' => ?_, fun g' hg' => ?_⟩
      · exact (mem_kinds_addItem hmem).elim hkind hkinds'.1
      · rcases List.mem_cons.mp hg' with rfl | hg'
        · exact hitems _ List.mem_cons_self
        · exact his g' hg'
      · rcases List.mem_cons.mp hg' with rfl | hg'
        · exact hholds _ List.mem_cons_self
        · exact hhs g' hg'

theorem isGrouped_groups {Q : ElementKind → ElementItem → Prop} {clauses : List ElementClause}
    (h : ∀ c ∈ clauses, Q c.kind (item c)) : IsGrouped Q (groups clauses) := by
  have hfold : ∀ (clauses : List ElementClause) (gs : List ElementGroup),
      (∀ c ∈ clauses, Q c.kind (item c)) → IsGrouped Q gs →
        IsGrouped Q (clauses.foldl (fun gs c => addItem c.kind (item c) gs) gs) := by
    intro clauses
    induction clauses with
    | nil => exact fun gs _ hgs => hgs
    | cons c clauses ih =>
      intro gs hclauses hgs
      exact ih _ (fun c' hc' => hclauses c' (List.mem_cons_of_mem c hc'))
        (isGrouped_addItem (hclauses c List.mem_cons_self) hgs)
  exact hfold clauses [] h ⟨.nil, (fun _ hg => by cases hg), fun _ hg => by cases hg⟩

/-- One more item is all that joins the groups. -/
theorem forall_mem_addItem {Q : ElementItem → Prop} {kind : ElementKind} {i : ElementItem} :
    ∀ {gs : List ElementGroup}, (∀ g ∈ addItem kind i gs, ∀ j ∈ g.items, Q j) ↔
      Q i ∧ ∀ g ∈ gs, ∀ j ∈ g.items, Q j
  | [] => by simp [addItem]
  | g :: gs => by
    rw [addItem]
    split
    · simp only [List.forall_mem_cons, List.forall_mem_append]
      tauto
    · rw [List.forall_mem_cons, forall_mem_addItem, List.forall_mem_cons]
      tauto

/-- **The groups hold the items of the clauses**, and no others. -/
theorem forall_mem_groups {Q : ElementItem → Prop} {clauses : List ElementClause} :
    (∀ g ∈ groups clauses, ∀ i ∈ g.items, Q i) ↔ ∀ c ∈ clauses, Q (item c) := by
  have hfold : ∀ (clauses : List ElementClause) (gs : List ElementGroup),
      (∀ g ∈ clauses.foldl (fun gs c => addItem c.kind (item c) gs) gs, ∀ i ∈ g.items, Q i) ↔
        (∀ c ∈ clauses, Q (item c)) ∧ ∀ g ∈ gs, ∀ i ∈ g.items, Q i := by
    intro clauses
    induction clauses with
    | nil => simp
    | cons c clauses ih =>
      intro gs
      rw [List.foldl_cons, ih, forall_mem_addItem, List.forall_mem_cons]
      tauto
  rw [groups, hfold]
  simp

/-! ## Plans -/

/-- A plan whose sort keys stand once, whose groups hold what their kinds say, and whose filters fit
their fields. -/
structure IsTyped (P : Kind → Entity → Prop) (year : Int) (p : Plan) : Prop where
  sorts : (p.sorts.map SortItem.key).Nodup
  elements : IsGrouped (fun kind i => kind.Holds P i.union) p.elements
  filters : ∀ g ∈ p.filters, g.union ≠ [] ∧ ∀ f ∈ g.union, Filtering.Answers year f.field f

theorem isTyped_ofMeaning {P : Kind → Entity → Prop} {year : Int} {m : Meaning}
    (h : m.IsTyped P year) : (ofMeaning m).IsTyped P year where
  sorts := h.sorts
  elements := isGrouped_groups h.elements
  filters g hg := by
    obtain ⟨c, hc, rfl⟩ := List.mem_map.mp hg
    exact h.filters c hc

end Plan

namespace Compiler

variable {c : Compiler} {lookup : Lookup} {text : String} {clock : Int} {p : Plan}

/-- A plan is the plan of what was understood. -/
theorem exists_meaning_of_compile (h : (c.compile lookup text clock).result = some p) :
    ∃ m, (c.understand lookup text clock).2 = some m ∧ p = .ofMeaning m := by
  unfold compile at h
  split at h
  · rename_i findings _
    cases ((Findings.finish_result_eq_some_iff _ _).mp h).2
  · rename_i findings m hm
    refine ⟨m, congrArg Prod.snd hm, ?_⟩
    exact (Option.some.inj ((Findings.finish_result_eq_some_iff _ _).mp h).2).symm

/-- What is understood is the meaning of a parse tree, or nothing is asked for. -/
theorem empty_or_of_understand {m : Meaning} (h : (c.understand lookup text clock).2 = some m) :
    m = .empty ∨ ∃ root, (PixQuery.analyze lookup c.options clock root).result = some m := by
  unfold understand at h
  split at h
  · exact .inr ⟨_, h⟩
  · simp only at h
    split at h
    · exact .inl (Option.some.inj h).symm
    · cases h

/-- **What a compiler gives is typed.** -/
theorem isTyped_of_compile {P : Kind → Entity → Prop} (hl : lookup.Tells P)
    (h : (c.compile lookup text clock).result = some p) : p.IsTyped P (c.options.year clock) := by
  obtain ⟨m, hm, rfl⟩ := exists_meaning_of_compile h
  refine Plan.isTyped_ofMeaning ?_
  obtain rfl | ⟨root, hroot⟩ := empty_or_of_understand hm
  · exact Meaning.isTyped_empty P (c.options.year clock)
  · exact isTyped_of_analyze hl hroot

end Compiler

end PixQuery
