import PixQuery.Proofs.Grammar.Ranges
import PixQuery.Proofs.Query.Parts

/-!
# Where the parts of a query stand

A part of a query is read from a node of the parse tree, and all it holds is read from the nodes
below. As ranges are nested as the nodes are, whatever is read from a node stands inside its range;
and the items of a query, which are read from siblings, stand one behind the other.

Results:
* `Stands.child`, `Stands.of_leftList`: what stands inside a span does so with its children, and
  with the members that it lists.
* `within_of_readPath`, `within_of_readPhrase`: what is read stands where it is read from.
* `within_of_readItem`: so does an item, with all that it holds.
* `apart_of_itemNodes`, `apart_of_readItem`: items and their nodes stand one behind the other.
-/

namespace PixQuery.Query

variable {s : Span} {t u : Tree} {ts : List Tree} {key : String}

/-! ## Parts inside a span -/

/-- All parts of the path lie inside the span. -/
def Path.Within (s : Span) (p : Path) : Prop := ∀ q ∈ p.parts, q.range.LiesIn s

/-- The value and its path lie inside the span. -/
structure Value.Within (s : Span) (v : Value) : Prop where
  range : v.range.LiesIn s
  path : v.path.Within s

/-- All that is related to lies inside the span, and there is some value if it is values. -/
def Predicate.Within (s : Span) : Predicate → Prop
  | values vs => vs ≠ [] ∧ ∀ v ∈ vs, v.Within s
  | collection ps => ∀ p ∈ ps, p.Within s
  | range r => r.first.Within s ∧ r.last.Within s

/-- The relation lies inside the span with all that it relates to. -/
def Relation.Within (s : Span) : Relation → Prop
  | binary _ predicate range => predicate.Within s ∧ range.LiesIn s
  | unary _ range => range.LiesIn s

/-- The phrase lies inside the span with its subject and its relation. -/
structure Phrase.Within (s : Span) (p : Phrase) : Prop where
  range : p.range.LiesIn s
  subject : p.subject.Within s
  relation : ∀ r, p.relation = some r → r.Within s

/-- The item lies inside the span with its phrases, of which there is one at least. -/
structure Item.Within (s : Span) (i : Item) : Prop where
  range : i.range.LiesIn s
  element : i.element.range.LiesIn s
  phrases_ne_nil : i.element.phrases ≠ []
  phrases : ∀ p ∈ i.element.phrases, p.Within s

theorem Path.Within.range {p : Path} (h : p.Within s) : p.range.LiesIn s := by
  have hlast : p.last ∈ p.parts := by
    unfold Path.last Path.parts
    cases hothers : p.others.getLast? with
    | none => exact List.mem_cons_self
    | some q => exact List.mem_cons_of_mem _ (List.mem_of_getLast? hothers)
  exact (h p.first List.mem_cons_self).cover (h p.last hlast)

/-! ## Trees inside a span -/

/-- A tree lies inside a span, and its ranges are nested. -/
structure Stands (s : Span) (t : Tree) : Prop where
  nested : t.Nested
  range : t.range.LiesIn s

theorem Stands.child (h : Stands s t) (hu : u ∈ childrenOf t) : Stands s u := by
  obtain ⟨hnested, hrange⟩ := h
  cases t with
  | leaf => cases hu
  | node n key children range =>
    obtain ⟨⟨hchildren, _⟩, hall⟩ := hnested
    exact ⟨Tree.allNested_iff.mp hall u hu, (hchildren u hu).trans hrange⟩

theorem Stands.of_expect {parent : Tree} (h : Stands s t) (ht : expect key parent t = .ok u) :
    Stands s u := by
  unfold expect at ht
  split at ht
  · obtain rfl := Except.ok.inj ht
    exact h
  · cases ht

/-- The members of a list stand where the list does. -/
theorem Stands.of_leftList (h : Stands s t) (hts : leftList key t = .ok ts) :
    ∀ u ∈ ts, Stands s u := by
  refine leftListOnto_induction (P := fun done t ts => Stands s t → (∀ u ∈ done, Stands s u) →
    ∀ u ∈ ts, Stands s u) (fun only h hdone => ?_) (fun rest between last ih h hdone => ?_) t hts h
    (fun u hu => by cases hu)
  · exact List.forall_mem_cons.mpr ⟨h.child List.mem_cons_self, hdone⟩
  · exact ih (h.child List.mem_cons_self)
      (List.forall_mem_cons.mpr ⟨h.child (by simp [childrenOf]), hdone⟩)

/-- The members of a list, each read where the list stands. -/
theorem of_mapM_leftList {α : Type} {P : α → Prop} {f : Tree → Lowered α} {as : List α}
    (h : Stands s t) (hts : leftList key t = .ok ts) (has : ts.mapM f = .ok as)
    (hf : ∀ u a, Stands s u → f u = .ok a → P a) : as ≠ [] ∧ ∀ a ∈ as, P a := by
  refine ⟨(exists_of_mapM_leftList hts has).1, fun a ha => ?_⟩
  obtain ⟨u, hu, hua⟩ := Understood.exists_of_mem_mapM has a ha
  exact hf u a (h.of_leftList hts u hu) hua

/-! ## Reading -/

theorem range_of_readPart {node : Tree} {q : Part} (h : Stands s t) (hq : readPart node t = .ok q) :
    q.range.LiesIn s := by
  unfold readPart at hq
  split at hq
  · obtain rfl := Except.ok.inj hq
    exact h.range
  · cases hq

/-- **A path** stands where it is read from. -/
theorem within_of_readPath {p : Path} (h : Stands s t) (hp : readPath t = .ok p) : p.Within s := by
  obtain ⟨ts, hts, hp⟩ := Understood.exists_of_bind hp
  obtain ⟨qs, hqs, hp⟩ := Understood.exists_of_bind hp
  have hparts := (of_mapM_leftList h hts hqs fun _ _ => range_of_readPart).2
  split at hp
  · obtain rfl := Except.ok.inj hp
    exact hparts
  · cases hp

theorem within_of_readPathAt {parent : Tree} {p : Path} (h : Stands s t)
    (hp : readPathAt parent t = .ok p) : p.Within s :=
  within_of_readPath h (of_bind_expect hp)

theorem within_of_readValue {v : Value} (h : Stands s t) (hv : readValue t = .ok v) :
    v.Within s := by
  unfold readValue at hv
  split at hv
  · rename_i path hchildren
    obtain ⟨p, hp, hv⟩ := Understood.exists_of_bind hv
    obtain rfl := Except.ok.inj hv
    exact ⟨h.range, within_of_readPathAt (h.child (by simp [hchildren])) hp⟩
  · rename_i before path hchildren
    obtain ⟨marks, _, hv⟩ := Understood.exists_of_bind (of_bind_expect hv)
    obtain ⟨p, hp, hv⟩ := Understood.exists_of_bind hv
    obtain rfl := Except.ok.inj hv
    exact ⟨h.range, within_of_readPathAt (h.child (by simp [hchildren])) hp⟩
  · cases hv

theorem within_of_readCollection {ps : List Path} (h : Stands s t)
    (hps : readCollection t = .ok ps) : ∀ p ∈ ps, p.Within s := by
  unfold readCollection at hps
  split at hps
  · obtain rfl := Except.ok.inj hps
    exact fun p hp => by cases hp
  · rename_i items closing hchildren
    obtain ⟨list, hlist, hps⟩ := Understood.exists_of_bind hps
    obtain ⟨ts, hts, hps⟩ := Understood.exists_of_bind hps
    have hstands := (h.child (by simp [hchildren])).of_expect hlist
    exact (of_mapM_leftList hstands hts hps fun _ _ => within_of_readPathAt).2
  · cases hps

theorem within_of_readRange {r : RangeLiteral} (h : Stands s t) (hr : readRange t = .ok r) :
    r.first.Within s ∧ r.last.Within s := by
  unfold readRange at hr
  split at hr
  · rename_i hchildren
    obtain ⟨p, hp, hr⟩ := Understood.exists_of_bind hr
    obtain ⟨q, hq, hr⟩ := Understood.exists_of_bind hr
    obtain rfl := Except.ok.inj hr
    exact ⟨within_of_readPathAt (h.child (by simp [hchildren])) hp,
      within_of_readPathAt (h.child (by simp [hchildren])) hq⟩
  · rename_i hchildren
    obtain ⟨includeBegin, _, hr⟩ := Understood.exists_of_bind hr
    obtain ⟨includeEnd, _, hr⟩ := Understood.exists_of_bind hr
    obtain ⟨p, hp, hr⟩ := Understood.exists_of_bind hr
    obtain ⟨q, hq, hr⟩ := Understood.exists_of_bind hr
    obtain rfl := Except.ok.inj hr
    exact ⟨within_of_readPathAt (h.child (by simp [hchildren])) hp,
      within_of_readPathAt (h.child (by simp [hchildren])) hq⟩
  · cases hr

theorem within_of_readPredicate {p : Predicate} (h : Stands s t) (hp : readPredicate t = .ok p) :
    p.Within s := by
  unfold readPredicate at hp
  split at hp
  · rename_i inner hchildren
    have hinner := h.child (u := inner) (by simp [hchildren])
    split at hp
    · obtain ⟨ts, hts, hp⟩ := Understood.exists_of_bind hp
      obtain ⟨vs, hvs, hp⟩ := Understood.exists_of_bind hp
      obtain rfl := Except.ok.inj hp
      exact of_mapM_leftList hinner hts hvs fun u v hu hv =>
        within_of_readValue hu (of_bind_expect hv)
    · split at hp
      · obtain ⟨ps, hps, hp⟩ := Understood.exists_of_bind hp
        obtain rfl := Except.ok.inj hp
        exact within_of_readCollection hinner hps
      · split at hp
        · obtain ⟨r, hr, hp⟩ := Understood.exists_of_bind hp
          obtain rfl := Except.ok.inj hp
          exact within_of_readRange hinner hr
        · cases hp
  · cases hp

theorem within_of_readSubject {node : Tree} {p : Path} (h : Stands s t)
    (hp : readSubject node t = .ok p) : p.Within s := by
  have hp := of_bind_expect hp
  split at hp
  · rename_i hchildren
    exact within_of_readPathAt (h.child (by simp [hchildren])) hp
  · cases hp

/-- **A phrase** stands where it is read from. -/
theorem within_of_readPhrase {p : Phrase} (h : Stands s t) (hp : readPhrase t = .ok p) :
    p.Within s := by
  unfold readPhrase at hp
  split at hp
  · rename_i hchildren
    obtain ⟨subject, hsubject, hp⟩ := Understood.exists_of_bind hp
    obtain rfl := Except.ok.inj hp
    exact ⟨h.range, within_of_readSubject (h.child (by simp [hchildren])) hsubject,
      fun _ hr => by cases hr⟩
  · rename_i hchildren
    obtain ⟨subject, hsubject, hp⟩ := Understood.exists_of_bind hp
    obtain ⟨symbol, hsymbol, hp⟩ := Understood.exists_of_bind hp
    obtain ⟨direction, _, hp⟩ := Understood.exists_of_bind hp
    obtain rfl := Except.ok.inj hp
    refine ⟨h.range, within_of_readSubject (h.child (by simp [hchildren])) hsubject, ?_⟩
    intro r hr
    obtain rfl := Option.some.inj hr
    exact ((h.child (by simp [hchildren])).of_expect hsymbol).range
  · rename_i hchildren
    obtain ⟨subject, hsubject, hp⟩ := Understood.exists_of_bind hp
    obtain ⟨symbol, hsymbol, hp⟩ := Understood.exists_of_bind hp
    obtain ⟨family, _, hp⟩ := Understood.exists_of_bind hp
    obtain ⟨predicative, hpredicative, hp⟩ := Understood.exists_of_bind hp
    obtain ⟨predicate, hpredicate, hp⟩ := Understood.exists_of_bind hp
    obtain rfl := Except.ok.inj hp
    have hfamily := (h.child (by simp [hchildren])).of_expect hsymbol
    have hstands := (h.child (by simp [hchildren])).of_expect hpredicative
    refine ⟨h.range, within_of_readSubject (h.child (by simp [hchildren])) hsubject, ?_⟩
    intro r hr
    obtain rfl := Option.some.inj hr
    exact ⟨within_of_readPredicate hstands hpredicate, hfamily.range.cover hstands.range⟩
  · cases hp

theorem within_of_readPhrases {node : Tree} {ps : List Phrase} (h : Stands s t)
    (hps : readPhrases node t = .ok ps) : ps ≠ [] ∧ ∀ p ∈ ps, p.Within s := by
  obtain ⟨ts, hts, hps⟩ := Understood.exists_of_bind (of_bind_expect hps)
  exact of_mapM_leftList h hts hps fun u p hu hp => within_of_readPhrase hu (of_bind_expect hp)

/-- **An item** stands where it is read from, with all that it holds. -/
theorem within_of_readItem {i : Item} (h : Stands s t) (hi : readItem t = .ok i) : i.Within s := by
  unfold readItem at hi
  split at hi
  · cases hi
  · rename_i last hlast
    have hstands := h.child (List.mem_of_getLast? hlast)
    obtain ⟨element, helement, hi⟩ := Understood.exists_of_bind (of_bind_expect hi)
    obtain ⟨marks, _, hi⟩ := Understood.exists_of_bind hi
    obtain rfl := Except.ok.inj hi
    suffices helement : element.range.LiesIn s ∧ element.phrases ≠ [] ∧
        ∀ p ∈ element.phrases, p.Within s from ⟨h.range, helement.1, helement.2.1, helement.2.2⟩
    unfold readElement at helement
    split at helement
    · rename_i items hchildren
      obtain ⟨ps, hps, helement⟩ := Understood.exists_of_bind helement
      obtain rfl := Except.ok.inj helement
      exact ⟨hstands.range, within_of_readPhrases (hstands.child (by simp [hchildren])) hps⟩
    · rename_i mark items hchildren
      obtain ⟨m, _, helement⟩ := Understood.exists_of_bind (of_bind_expect helement)
      obtain ⟨ps, hps, helement⟩ := Understood.exists_of_bind helement
      obtain rfl := Except.ok.inj helement
      exact ⟨hstands.range, within_of_readPhrases (hstands.child (by simp [hchildren])) hps⟩
    · cases helement

/-! ## Items of a query -/

/-- Trees stand one behind the other. -/
def Apart (ts : List Tree) : Prop := ts.Pairwise fun t u => t.range.stopOrNext ≤ u.range.start

/-- **The members of a list** stand one behind the other. -/
theorem apart_of_leftList (h : t.Nested) (hts : leftList key t = .ok ts) : Apart ts := by
  refine leftListOnto_induction (P := fun done t ts => t.Nested →
    (∀ d ∈ done, t.range.stopOrNext ≤ d.range.start) → Apart done → Apart ts)
    (fun only h hdone hapart => ?_) (fun rest between last ih h hdone hapart => ?_) t hts h
    (fun _ hd => by cases hd) .nil
  · have hinside := (h.1.1 only List.mem_cons_self).stop_le
    exact List.pairwise_cons.mpr ⟨fun d hd => hinside.trans (hdone d hd), hapart⟩
  · obtain ⟨⟨hchildren, hapart'⟩, hnested⟩ := h
    have hlast : last ∈ between ++ [last] := by simp
    have hrest := (hchildren rest List.mem_cons_self).stop_le
    have hinside := (hchildren last (List.mem_cons_of_mem _ hlast)).stop_le
    have hbefore := (List.pairwise_cons.mp hapart').1 last hlast
    refine ih hnested.1 (List.forall_mem_cons.mpr ⟨hbefore, fun d hd => ?_⟩)
      (List.pairwise_cons.mpr ⟨fun d hd => hinside.trans (hdone d hd), hapart⟩)
    exact hrest.trans (hdone d hd)

theorem map_eq_of_mapM_expect {parent : Tree} {us : List Tree}
    (h : ts.mapM (expect key parent) = .ok us) : us = ts := by
  induction ts generalizing us with
  | nil => exact (Except.ok.inj h).symm
  | cons t ts ih =>
    rw [List.mapM_cons] at h
    obtain ⟨u, hu, h⟩ := Understood.exists_of_bind h
    obtain ⟨rest, hrest, h⟩ := Understood.exists_of_bind h
    obtain rfl := Except.ok.inj h
    unfold expect at hu
    split at hu
    · rw [← Except.ok.inj hu, ih hrest]
    · cases hu

/-- **The nodes of items** stand where the query does, one behind the other. -/
theorem apart_of_itemNodes {root : Tree} {nodes : List Tree} (h : Stands s root)
    (hnodes : itemNodes root = .ok nodes) : (∀ n ∈ nodes, Stands s n) ∧ Apart nodes := by
  obtain ⟨ts, hts, hexpect⟩ := Understood.exists_of_bind hnodes
  obtain rfl := map_eq_of_mapM_expect hexpect
  exact ⟨h.of_leftList hts, apart_of_leftList h.nested hts⟩

theorem range_of_readItem {i : Item} (hi : readItem t = .ok i) : i.range = t.range := by
  unfold readItem at hi
  split at hi
  · cases hi
  · obtain ⟨element, _, hi⟩ := Understood.exists_of_bind (of_bind_expect hi)
    obtain ⟨marks, _, hi⟩ := Understood.exists_of_bind hi
    obtain rfl := Except.ok.inj hi
    rfl

theorem map_range_of_readItem {items : List Item} (h : ts.mapM readItem = .ok items) :
    items.map Item.range = ts.map Tree.range := by
  induction ts generalizing items with
  | nil =>
    obtain rfl := Except.ok.inj h
    rfl
  | cons t ts ih =>
    rw [List.mapM_cons] at h
    obtain ⟨i, hi, h⟩ := Understood.exists_of_bind h
    obtain ⟨rest, hrest, h⟩ := Understood.exists_of_bind h
    obtain rfl := Except.ok.inj h
    rw [List.map_cons, List.map_cons, range_of_readItem hi, ih hrest]

/-- **The items of a query** hold their parts, and stand one behind the other. -/
theorem apart_of_readItem {items : List Item} (hstands : ∀ t ∈ ts, Stands s t) (hapart : Apart ts)
    (h : ts.mapM readItem = .ok items) : (∀ i ∈ items, i.Within i.range) ∧
      items.Pairwise fun i j => i.range.stopOrNext ≤ j.range.start := by
  refine ⟨fun i hi => ?_, ?_⟩
  · obtain ⟨t, ht, hread⟩ := Understood.exists_of_mem_mapM h i hi
    rw [range_of_readItem hread]
    exact within_of_readItem ⟨(hstands t ht).nested, (hstands t ht).range.self⟩ hread
  · have hranges : (ts.map Tree.range).Pairwise fun r s => r.stopOrNext ≤ s.start :=
      List.pairwise_map.mpr hapart
    rw [← map_range_of_readItem h] at hranges
    exact List.pairwise_map.mp hranges

end PixQuery.Query
