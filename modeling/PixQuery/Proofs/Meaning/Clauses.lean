import Mathlib.Data.List.Nodup
import PixQuery.Meaning.Analysis
import PixQuery.Proofs.Meaning.Typing

/-!
# What the clauses of a meaning hold

Each item of a query adds a contribution to its meaning, and what every contribution respects is an
invariant of the whole analysis: sort keys stand once, a clause of free text holds texts, a clause
of a kind holds entities that the lookup tells of for this kind, and filters fit their fields.

What a lookup tells is not restricted here; `Lookup.Tells` says that a property holds of all of it.

Results:
* `Analysis.fits_of_analyzeItem`: what one item adds fits.
* `of_analyze`: what every item keeps holds of the whole meaning.
* `isTyped_of_analyze`: the whole meaning is typed.
-/

namespace PixQuery

open Query (Path Value Predicate Phrase Relation Family Item)

/-- A property of all entities that a lookup tells of: those under names of a kind, and the children
of tags. -/
structure Lookup.Tells (lookup : Lookup) (P : Kind → Entity → Prop) : Prop where
  byName : ∀ kind parts, ∀ e ∈ lookup.byName kind parts, P kind e
  children : ∀ id, ∀ e ∈ lookup.children .tag id, P .tag e

theorem Lookup.tells_anything (lookup : Lookup) : lookup.Tells fun _ _ => True :=
  ⟨fun _ _ _ _ => trivial, fun _ _ _ => trivial⟩

/-- The members of a clause of a kind: some texts, or entities with a property. -/
def ElementKind.Holds (P : Kind → Entity → Prop) (kind : ElementKind) (union : List ElementValue) :
    Prop :=
  match kind with
  | text => union ≠ [] ∧ ∀ v ∈ union, ∃ value exact, v = .text value exact
  | of k => ∀ v ∈ union, ∃ e, v = .entity e ∧ P k e

/-- A meaning whose sort keys stand once, whose clauses hold what their kind says, and whose filters
fit their fields. -/
structure Meaning.IsTyped (P : Kind → Entity → Prop) (year : Int) (m : Meaning) : Prop where
  sorts : (m.sorts.map SortItem.key).Nodup
  elements : ∀ c ∈ m.elements, c.kind.Holds P c.union
  filters : ∀ c ∈ m.filters, c.union ≠ [] ∧ ∀ f ∈ c.union, Filtering.Answers year f.field f

theorem Meaning.isTyped_empty (P : Kind → Entity → Prop) (year : Int) : empty.IsTyped P year :=
  ⟨.nil, (fun _ hc => by cases hc), fun _ hc => by cases hc⟩

variable {P : Kind → Entity → Prop} {lookup : Lookup}

/-! ## Entities -/

theorem mem_addEntities {v : ElementValue} : ∀ {found : List Entity} {union : List ElementValue},
    v ∈ addEntities union found → v ∈ union ∨ ∃ e ∈ found, v = .entity e
  | [], _, h => .inl h
  | e :: found, union, h => by
    rcases @mem_addEntities v found _ h with h | ⟨e', he', rfl⟩
    · simp only at h
      split at h
      · exact .inl h
      · rcases List.mem_append.mp h with h | h
        · exact .inl h
        · exact .inr ⟨e, List.mem_cons_self, List.mem_singleton.mp h⟩
    · exact .inr ⟨e', List.mem_cons_of_mem e he', rfl⟩

/-- The members of a union are entities of its groups. -/
theorem mem_unionOf {v : ElementValue} {groups : List (List Entity)} (h : v ∈ unionOf groups) :
    ∃ found ∈ groups, ∃ e ∈ found, v = .entity e := by
  have hfold : ∀ (groups : List (List Entity)) (union : List ElementValue),
      v ∈ groups.foldl addEntities union → v ∈ union ∨ ∃ found ∈ groups,
        ∃ e ∈ found, v = .entity e := by
    intro groups
    induction groups with
    | nil => exact fun union h => .inl h
    | cons found groups ih =>
      intro union h
      rcases ih _ h with h | ⟨g, hg, h⟩
      · exact (mem_addEntities h).imp id fun h => ⟨found, List.mem_cons_self, h⟩
      · exact .inr ⟨g, List.mem_cons_of_mem found hg, h⟩
  exact (hfold groups [] h).resolve_left (List.not_mem_nil)

/-- A union of groups, all of which are of a kind. -/
theorem holds_unionOf {kind : Kind} {groups : List (List Entity)}
    (h : ∀ found ∈ groups, ∀ e ∈ found, P kind e) :
      (ElementKind.of kind).Holds P (unionOf groups) := by
  intro v hv
  obtain ⟨found, hfound, e, he, rfl⟩ := mem_unionOf hv
  exact ⟨e, rfl, h found hfound e he⟩

theorem tells_of_resolve (hl : lookup.Tells P) {kind : Kind} {path : Path} {found : List Entity}
    (h : resolve lookup kind path = .ok found) : ∀ e ∈ found, P kind e := by
  unfold resolve at h
  simp only at h
  split at h
  · cases h
  · split at h
    · cases h
    · split at h
      · cases h
      · obtain rfl := Except.ok.inj h
        exact hl.byName kind _

theorem holds_of_resolveAll (hl : lookup.Tells P) {kind : Kind} {paths : List Path}
    {union : List ElementValue} (h : resolveAll lookup kind paths = .ok union) :
    (ElementKind.of kind).Holds P union := by
  obtain ⟨groups, hgroups, rfl⟩ := Understood.exists_of_map h
  refine holds_unionOf fun found hfound => ?_
  obtain ⟨path, _, hpath⟩ := Understood.exists_of_mem_mapM hgroups found hfound
  exact tells_of_resolve hl hpath

/-- Names without a mark are all read as of the kind that is found. -/
theorem resolveAll_of_resolveBare {paths : List Path} {kind : Kind} {union : List ElementValue}
    (h : resolveBare lookup paths = .ok (kind, union)) :
    resolveAll lookup kind paths = .ok union := by
  unfold resolveBare at h
  split at h
  · rename_i hall
    obtain ⟨rfl, rfl⟩ := Prod.mk.inj (Except.ok.inj h)
    exact hall
  · split at h
    · rename_i hall
      obtain ⟨rfl, rfl⟩ := Prod.mk.inj (Except.ok.inj h)
      exact hall
    · split at h
      · rename_i hall
        obtain ⟨rfl, rfl⟩ := Prod.mk.inj (Except.ok.inj h)
        exact hall
      · split at h <;> cases h

/-! ## Relations between tags -/

namespace Sequence

theorem mem_foldl_addNew {e : Entity} : ∀ {es found : List Entity},
    e ∈ es.foldl addNew found → e ∈ found ∨ e ∈ es
  | [], _, h => .inl h
  | e' :: es, found, h => by
    rcases @mem_foldl_addNew e es _ h with h | h
    · unfold addNew at h
      split at h
      · exact .inl h
      · rcases List.mem_append.mp h with h | h
        · exact .inl h
        · exact .inr (List.mem_singleton.mp h ▸ List.mem_cons_self)
    · exact .inr (List.mem_cons_of_mem e' h)

theorem tells_groupMembers (hl : lookup.Tells P) (subject : Path) (names : List Path) :
    ∀ e ∈ groupMembers lookup subject names, P .tag e := by
  intro e he
  rcases mem_foldl_addNew he with he | he
  · cases he
  · obtain ⟨g, _, he⟩ := List.mem_flatMap.mp (List.mem_filter.mp he).1
    exact hl.children _ e he

theorem mem_of_stretch {first last : Option End} {members found : List Entity}
    (h : stretch lookup first last members = .ok found) : ∀ e ∈ found, e ∈ members := by
  have hslice : ∀ {start stop : Nat}, Except.ok ((members.take stop).drop start) =
      (Except.ok found : Understood (List Entity)) → ∀ e ∈ found, e ∈ members := by
    intro start stop h e he
    obtain rfl := Except.ok.inj h
    exact List.mem_of_mem_take (List.mem_of_mem_drop he)
  cases first with
  | none =>
    cases last with
    | none => exact hslice h
    | some b =>
      obtain ⟨_, _, h⟩ := Understood.exists_of_bind h
      obtain ⟨place, _, h⟩ := Understood.exists_of_bind h
      exact hslice h
  | some a =>
    obtain ⟨place, _, h⟩ := Understood.exists_of_bind h
    cases last with
    | none => exact hslice h
    | some b =>
      obtain ⟨_, _, h⟩ := Understood.exists_of_bind h
      obtain ⟨place', _, h⟩ := Understood.exists_of_bind h
      exact hslice h

theorem tells_of_stretches (hl : lookup.Tells P) {subject : Path} {first last : Option End}
    {found : List Entity} (h : stretches lookup subject first last = .ok found) :
    ∀ e ∈ found, P .tag e := by
  obtain ⟨groups, hgroups, h⟩ := Understood.exists_of_bind h
  obtain rfl := Except.ok.inj h
  intro e he
  obtain ⟨members, hmembers, he⟩ := List.mem_flatten.mp he
  obtain ⟨g, _, hg⟩ := Understood.exists_of_mem_mapM hgroups members hmembers
  exact hl.children _ e (mem_of_stretch hg e he)

/-- The sequence that a tag is in are the children of its group. -/
theorem tells_of_sequenceWith? (hl : lookup.Tells P) {subject : Path} {members : List Entity}
    {place : Nat} (h : sequenceWith? lookup subject = some (members, place)) :
    ∀ e ∈ members, P .tag e := by
  obtain ⟨tag, _, h⟩ := List.exists_of_findSome?_eq_some h
  obtain ⟨id, _, h⟩ := Option.bind_eq_some_iff.mp h
  obtain ⟨group, _, h⟩ := Option.bind_eq_some_iff.mp h
  split at h
  · obtain ⟨place', _, h⟩ := Option.bind_eq_some_iff.mp h
    obtain ⟨rfl, _⟩ := Prod.mk.inj (Option.some.inj h)
    exact hl.children _
  · cases h

theorem tells_of_between (hl : lookup.Tells P) {subject other : Path} {found : List Entity}
    (h : between lookup subject other = .ok found) : ∀ e ∈ found, P .tag e := by
  unfold between at h
  split at h
  · obtain rfl := Except.ok.inj h
    exact fun e he => by cases he
  · rename_i members place hmembers
    obtain ⟨otherPlace, _, h⟩ := Understood.exists_of_bind h
    obtain rfl := Except.ok.inj h
    exact fun e he =>
      tells_of_sequenceWith? hl hmembers e (List.mem_of_mem_take (List.mem_of_mem_drop he))

theorem tells_onward (hl : lookup.Tells P) (subject : Path) (direction : Query.Direction) :
    ∀ e ∈ onward lookup subject direction, P .tag e := by
  unfold onward
  split
  · exact fun e he => by cases he
  · rename_i members place hmembers
    intro e he
    refine tells_of_sequenceWith? hl hmembers e ?_
    cases direction with
    | ascending => exact List.mem_of_mem_drop he
    | descending => exact List.mem_of_mem_take he

theorem tells_of_selectBinary (hl : lookup.Tells P) {bounds : RangeBounds} {subject : Path}
    {family : Family} {predicate : Predicate} {range : Span} {found : List Entity}
    (h : selectBinary lookup bounds subject family predicate range = .ok found) :
    ∀ e ∈ found, P .tag e := by
  unfold selectBinary at h
  simp only at h
  split at h
  · split at h
    · obtain ⟨name, _, h⟩ := Understood.exists_of_bind h
      obtain rfl := Except.ok.inj h
      exact tells_groupMembers hl subject _
    · obtain ⟨name, _, h⟩ := Understood.exists_of_bind h
      exact tells_of_between hl h
    all_goals
      obtain ⟨name, _, h⟩ := Understood.exists_of_bind h
      exact tells_of_stretches hl h
  · split at h
    · obtain rfl := Except.ok.inj h
      exact tells_groupMembers hl subject _
    all_goals cases h
  · split at h
    · exact tells_of_stretches hl h
    all_goals cases h

/-- The tags that a phrase selects are told by the lookup. -/
theorem tells_of_members (hl : lookup.Tells P) {bounds : RangeBounds} {phrase : Phrase}
    {found : List Entity} (h : members lookup bounds phrase = .ok found) :
      ∀ e ∈ found, P .tag e := by
  obtain ⟨found', hfound, h⟩ := Understood.exists_of_bind h
  split at h
  · cases h
  · obtain rfl := Except.ok.inj h
    unfold select at hfound
    split at hfound
    · obtain rfl := Except.ok.inj hfound
      exact hl.byName .tag _
    · obtain rfl := Except.ok.inj hfound
      exact tells_onward hl _ _
    · exact tells_of_selectBinary hl hfound

end Sequence

namespace Analysis

variable {options : CompilerOptions} {clock : Int}

/-! ## Sorting -/

theorem nodup_of_sortItems : ∀ {vs : List Value} {present : List OrderKey} {items : List SortItem},
    present.Nodup → (sortItems present vs).2 = .ok items →
      (present ++ items.map SortItem.key).Nodup
  | [], present, items, hp, h => by
    obtain rfl := Except.ok.inj h
    rwa [List.map_nil, List.append_nil]
  | v :: vs, present, items, hp, h => by
    rw [sortItems] at h
    split at h
    · cases h
    · rename_i item _
      split at h
      · exact nodup_of_sortItems hp h
      · rename_i hnew
        obtain ⟨rest, hrest, rfl⟩ := Understood.exists_of_map h
        have hmore : (present ++ [item.key]).Nodup :=
          List.nodup_append'.mpr ⟨hp, List.nodup_singleton _, by simpa using hnew⟩
        simpa using nodup_of_sortItems hmore hrest

theorem nodup_of_sorts {present : List OrderKey} {phrase : Phrase} {items : List SortItem}
    (hp : present.Nodup) (h : (sorts present phrase).2 = .ok items) :
    (present ++ items.map SortItem.key).Nodup := by
  unfold sorts at h
  split at h
  · exact nodup_of_sortItems hp h
  all_goals cases h

/-! ## Items -/

/-- What an item may add to a meaning with some sort keys. -/
def Contribution.Fits (P : Kind → Entity → Prop) (year : Int) (present : List OrderKey) :
    Contribution → Prop
  | sorts items => (present ++ items.map SortItem.key).Nodup
  | element c => c.kind.Holds P c.union
  | filter c => c.union ≠ [] ∧ ∀ f ∈ c.union, Filtering.Answers year f.field f
  | nothing => True

theorem holds_of_markedItem (hl : lookup.Tells P) {bounds : RangeBounds} {item : Item}
    {mark : Query.Mark} {c : ElementClause} (h : markedItem lookup bounds item mark = .ok c) :
    c.kind.Holds P c.union := by
  unfold markedItem at h
  split at h
  · cases h
  · obtain ⟨groups, hgroups, h⟩ := Understood.exists_of_bind h
    obtain rfl := Except.ok.inj h
    refine holds_unionOf fun found hfound => ?_
    obtain ⟨phrase, _, hphrase⟩ := Understood.exists_of_mem_mapM hgroups found hfound
    unfold markedPhrase at hphrase
    split at hphrase
    · cases hphrase
    · rename_i hrelation
      split at hphrase
      · cases hphrase
      · split at hphrase
        · rename_i hsome
          -- a phrase that has a relation stands behind the mark of tags
          obtain ⟨r, hr⟩ := Option.isSome_iff_exists.mp hsome
          have hkind : markKind mark = .tag := by simpa [hr] using hrelation
          rw [hkind]
          exact Sequence.tells_of_members hl hphrase
        · exact tells_of_resolve hl hphrase

theorem fits_of_filterItem {present : List OrderKey} {item : Item} {fields : List (Field × Phrase)}
    {c : Contribution} (h : filterItem options clock item fields = .ok c) :
    c.Fits P (options.year clock) present := by
  obtain ⟨groups, hgroups, h⟩ := Understood.exists_of_bind h
  split at h
  · obtain rfl := Except.ok.inj h
    trivial
  · rename_i hne
    obtain rfl := Except.ok.inj h
    refine ⟨hne, fun f hf => ?_⟩
    obtain ⟨fs, hfs, hf⟩ := List.mem_flatten.mp hf
    obtain ⟨field, _, hfield⟩ := Understood.exists_of_mem_mapM hgroups fs hfs
    have hanswers := Filtering.answers_filters hfield f hf
    exact hanswers.about ▸ hanswers

theorem fits_of_fieldItem (hl : lookup.Tells P) {present : List OrderKey} {item : Item}
    {subjects : List Subject} {c : Contribution}
    (h : fieldItem lookup options clock item subjects = .ok c) :
      c.Fits P (options.year clock) present := by
  unfold fieldItem at h
  split at h
  · exact fits_of_filterItem h
  · split at h
    · cases h
    · obtain ⟨clause, hclause, h⟩ := Understood.exists_of_bind h
      obtain rfl := Except.ok.inj h
      unfold elementFieldItem at hclause
      split at hclause
      · cases hclause
      · obtain ⟨paths, _, hclause⟩ := Understood.exists_of_bind hclause
        obtain ⟨union, hunion, hclause⟩ := Understood.exists_of_bind hclause
        obtain rfl := Except.ok.inj hclause
        exact holds_of_resolveAll hl hunion

theorem holds_of_textItem {item : Item} {subjects : List Subject} {c : ElementClause}
    (hany : subjects.any Subject.isText = true) (h : textItem item subjects = .ok c) :
    c.kind.Holds P c.union := by
  unfold textItem at h
  split at h
  · cases h
  · obtain rfl := Except.ok.inj h
    refine ⟨?_, fun v hv => ?_⟩
    · obtain ⟨s, hs, htext⟩ := List.any_eq_true.mp hany
      cases s with
      | text value exact => exact List.ne_nil_of_mem (List.mem_filterMap.mpr ⟨_, hs, rfl⟩)
      | sort => cases htext
      | field _ => cases htext
      | elementField _ => cases htext
      | name => cases htext
      | sequence => cases htext
    · obtain ⟨s, _, hsv⟩ := List.mem_filterMap.mp hv
      cases s with
      | text value exact => exact ⟨value, exact, (Option.some.inj hsv).symm⟩
      | sort => cases hsv
      | field _ => cases hsv
      | elementField _ => cases hsv
      | name => cases hsv
      | sequence => cases hsv

theorem holds_of_nameItem (hl : lookup.Tells P) {bounds : RangeBounds} {item : Item}
    {subjects : List Subject} {c : ElementClause}
    (h : nameItem lookup bounds item subjects = .ok c) : c.kind.Holds P c.union := by
  unfold nameItem at h
  simp only at h
  split at h
  · obtain ⟨groups, hgroups, h⟩ := Understood.exists_of_bind h
    obtain rfl := Except.ok.inj h
    refine holds_unionOf fun found hfound => ?_
    obtain ⟨s, _, hs⟩ := Understood.exists_of_mem_mapM hgroups found hfound
    unfold relatedPhrase at hs
    split at hs
    · exact Sequence.tells_of_members hl hs
    · exact tells_of_resolve hl hs
  · split at h
    · obtain ⟨union, hunion, h⟩ := Understood.exists_of_bind h
      obtain rfl := Except.ok.inj h
      exact holds_of_resolveAll hl hunion
    · obtain ⟨⟨kind, union⟩, hunion, h⟩ := Understood.exists_of_bind h
      obtain rfl := Except.ok.inj h
      exact holds_of_resolveAll hl (resolveAll_of_resolveBare hunion)

theorem fits_of_plainItem (hl : lookup.Tells P) {present : List OrderKey} {item : Item}
    {subjects : List Subject} {c : Contribution}
    (h : plainItem lookup options clock item subjects = .ok c) :
      c.Fits P (options.year clock) present := by
  unfold plainItem at h
  split at h
  · split at h
    · exact fits_of_fieldItem hl h
    · cases h
  · split at h
    · rename_i hany
      split at h
      · obtain ⟨clause, hclause, h⟩ := Understood.exists_of_bind h
        obtain rfl := Except.ok.inj h
        exact holds_of_textItem hany hclause
      · cases h
    · obtain ⟨clause, hclause, h⟩ := Understood.exists_of_bind h
      obtain rfl := Except.ok.inj h
      exact holds_of_nameItem hl hclause

theorem fits_of_sortingItem {present : List OrderKey} {item : Item} {c : Contribution}
    (hp : present.Nodup) (h : (sortingItem present item).2 = .ok c) :
    c.Fits P (options.year clock) present := by
  unfold sortingItem at h
  split at h
  · split at h
    · cases h
    · obtain ⟨items, hitems, rfl⟩ := Understood.exists_of_map h
      exact nodup_of_sorts hp hitems
  · cases h

/-- **What an item adds fits** the sort keys that are there, what the lookup tells, and the fields
it is about. -/
theorem fits_of_analyzeItem (hl : lookup.Tells P) {present : List OrderKey} {item : Item}
    {c : Contribution} (hp : present.Nodup)
    (h : (analyzeItem lookup options clock present item).2 = .ok c) :
      c.Fits P (options.year clock) present := by
  unfold analyzeItem at h
  split at h
  · obtain ⟨clause, hclause, rfl⟩ := Understood.exists_of_map h
    exact holds_of_markedItem hl hclause
  · split at h
    · cases h
    · split at h
      · exact fits_of_sortingItem hp h
      · exact fits_of_plainItem hl h

/-! ## Meanings -/

theorem isTyped_addTo {year : Int} {m : Meaning} (hm : m.IsTyped P year) {c : Contribution}
    (hc : c.Fits P year (m.sorts.map SortItem.key)) : (c.addTo m).IsTyped P year := by
  obtain ⟨hsorts, helements, hfilters⟩ := hm
  cases c with
  | sorts items => exact ⟨List.map_append ▸ hc, helements, hfilters⟩
  | element clause =>
    refine ⟨hsorts, fun c hmem => ?_, hfilters⟩
    rcases List.mem_append.mp hmem with hmem | hmem
    · exact helements c hmem
    · exact List.mem_singleton.mp hmem ▸ hc
  | filter clause =>
    refine ⟨hsorts, helements, fun c hmem => ?_⟩
    rcases List.mem_append.mp hmem with hmem | hmem
    · exact hfilters c hmem
    · exact List.mem_singleton.mp hmem ▸ hc
  | nothing => exact ⟨hsorts, helements, hfilters⟩

end Analysis

/-- A meaning is that of all items, none of which had an error. -/
theorem exists_of_analyze {options : CompilerOptions} {clock : Int} {root : Tree} {m : Meaning}
    (h : (analyze lookup options clock root).result = some m) :
    ∃ nodes, Query.itemNodes root = .ok nodes ∧
      (nodes.foldl (Analysis.addItem lookup options clock) ⟨.empty, .empty⟩).findings.errors = [] ∧
      (nodes.foldl (Analysis.addItem lookup options clock) ⟨.empty, .empty⟩).meaning = m := by
  unfold analyze at h
  split at h
  · cases h
  · rename_i nodes hnodes
    obtain ⟨herrors, hmeaning⟩ := (Findings.finish_result_eq_some_iff _ _).mp h
    exact ⟨nodes, hnodes, herrors, Option.some.inj hmeaning⟩

/-- What holds of the empty meaning and is kept by what items add holds of the whole meaning. -/
theorem of_analyze {Q : Meaning → Prop} {options : CompilerOptions} {clock : Int}
    {root : Tree} {m : Meaning} (hempty : Q .empty)
    (hadd : ∀ {m : Meaning} {item : Item} {c : Analysis.Contribution}, Q m →
      (Analysis.analyzeItem lookup options clock (m.sorts.map SortItem.key) item).2 = .ok c →
        Q (c.addTo m))
    (h : (analyze lookup options clock root).result = some m) : Q m := by
  have hstep : ∀ (p : Analysis.Progress) (node : Tree), Q p.meaning →
      Q (Analysis.addItem lookup options clock p node).meaning := by
    intro p node hp
    unfold Analysis.addItem
    split
    · exact hp
    · simp only
      split
      · exact hp
      · rename_i c hc
        exact hadd hp hc
  have hfold : ∀ (nodes : List Tree) (p : Analysis.Progress), Q p.meaning →
      Q (nodes.foldl (Analysis.addItem lookup options clock) p).meaning := by
    intro nodes
    induction nodes with
    | nil => exact fun p hp => hp
    | cons node nodes ih => exact fun p hp => ih _ (hstep p node hp)
  obtain ⟨nodes, _, _, rfl⟩ := exists_of_analyze h
  exact hfold nodes _ hempty

/-- **A meaning is typed**: its sort keys stand once, its clauses hold what the lookup tells for
their kinds, and its filters fit their fields. -/
theorem isTyped_of_analyze (hl : lookup.Tells P) {options : CompilerOptions}
    {clock : Int} {root : Tree}
    {m : Meaning} (h : (analyze lookup options clock root).result = some m) :
      m.IsTyped P (options.year clock) :=
  of_analyze (Meaning.isTyped_empty P (options.year clock))
    (fun hm hc => Analysis.isTyped_addTo hm (Analysis.fits_of_analyzeItem hl hm.sorts hc)) h

end PixQuery
