import PixQuery.Proofs.Query.Reading

/-!
# What an item is read from

The phrases of an item are read from pieces of its tokens, and so are the items of a query. A list
is read with all its members, of which there is one at least: an item that was read has a phrase,
and only collections in it can be empty.

Results:
* `exists_of_readItem`: each phrase of an item is read from a piece of the tokens of the item.
* `isComplete_of_readItem`: an item that was read has phrases, and no list of values is empty.
-/

namespace PixQuery.Query

/-! ## Pieces of tokens -/

theorem infix_tokensOf {t : Tree} : ∀ {ts : List Tree}, t ∈ ts → t.tokens <:+: Tree.tokensOf ts
  | u :: ts, h => by
    rw [Tree.tokensOf]
    rcases List.mem_cons.mp h with rfl | h
    · exact ⟨[], Tree.tokensOf ts, by simp⟩
    · exact (infix_tokensOf h).trans ⟨u.tokens, [], by simp⟩

theorem infix_of_mem_childrenOf {t u : Tree} (h : u ∈ childrenOf t) : u.tokens <:+: t.tokens := by
  cases t with
  | leaf => cases h
  | node n key children range => exact infix_tokensOf h

theorem of_bind_expect {α : Type} {key : String} {parent child : Tree}
    {f : Tree → Lowered α} {a : α}
    (h : (expect key parent child >>= f) = .ok a) : f child = .ok a := by
  obtain ⟨t, ht, h⟩ := Understood.exists_of_bind h
  unfold expect at ht
  split at ht
  · rwa [Except.ok.inj ht]
  · cases ht

/-- What holds of lists with one member and passes from the list of all members but the last to the
whole list holds of every list that is read. -/
theorem leftListOnto_induction {key : String} {P : List Tree → Tree → List Tree → Prop}
    (one : ∀ {done : List Tree} {n : Nat} {range : Span} (only : Tree),
      P done (.node n key [only] range) (only :: done))
    (more : ∀ {done ts : List Tree} {n : Nat} {range : Span} (rest : Tree) (between : List Tree)
      (last : Tree), P (last :: done) rest ts →
        P done (.node n key (rest :: (between ++ [last])) range) ts) :
    ∀ (t : Tree) {done ts : List Tree}, leftListOnto key done t = .ok ts → P done t ts
  | .leaf _, _, _, h => by cases h
  | .node n k children range, done, ts, h => by
    unfold leftListOnto at h
    simp only at h
    split at h
    · rename_i hkey
      obtain rfl : k = key := by simpa using hkey
      split at h
      · obtain rfl := Except.ok.inj h
        exact one _
      · split at h
        · exact more _ [] _ (leftListOnto_induction one more _ h)
        · cases h
      · split at h
        · exact more _ [_] _ (leftListOnto_induction one more _ h)
        · cases h
      · cases h
    · cases h

/-- A list is read up to its last member, which ends it. -/
theorem exists_last_of_leftListOnto {key : String} {t : Tree} {done ts : List Tree}
    (h : leftListOnto key done t = .ok ts) :
    ∃ before last, ts = before ++ last :: done ∧ last.tokens <:+ t.tokens := by
  refine leftListOnto_induction (P := fun done t ts =>
    ∃ before last, ts = before ++ last :: done ∧ last.tokens <:+ t.tokens)
    (fun only => ?_) (fun rest between last ih => ?_) t h
  · exact ⟨[], only, rfl, by simp [Tree.tokens, Tree.tokensOf]⟩
  · obtain ⟨before, u, rfl, _⟩ := ih
    refine ⟨before ++ [u], last, by simp, ?_⟩
    refine ⟨rest.tokens ++ Tree.tokensOf between, ?_⟩
    simp [Tree.tokens, Tree.tokensOf, Tree.tokensOf_append]

theorem infix_of_leftListOnto {key : String} {t : Tree} {done ts : List Tree}
    (h : leftListOnto key done t = .ok ts) : ∀ u ∈ ts, u ∈ done ∨ u.tokens <:+: t.tokens := by
  refine leftListOnto_induction (P := fun done t ts => ∀ u ∈ ts, u ∈ done ∨ u.tokens <:+: t.tokens)
    (fun only u hu => ?_) (fun rest between last ih u hu => ?_) t h
  · rcases List.mem_cons.mp hu with rfl | hu
    · exact .inr (infix_tokensOf List.mem_cons_self)
    · exact .inl hu
  · rcases ih u hu with hu | hu
    · rcases List.mem_cons.mp hu with rfl | hu
      · exact .inr (infix_tokensOf (by simp))
      · exact .inl hu
    · -- the members before the last are pieces of the list that the node begins with
      exact .inr (hu.trans (infix_tokensOf List.mem_cons_self))

/-- The members of a list are pieces of it, and there is one at least. -/
theorem infix_of_leftList {key : String} {t : Tree} {ts : List Tree} (h : leftList key t = .ok ts) :
    ts ≠ [] ∧ ∀ u ∈ ts, u.tokens <:+: t.tokens := by
  refine ⟨?_, fun u hu => (infix_of_leftListOnto h u hu).resolve_left List.not_mem_nil⟩
  obtain ⟨before, last, rfl, _⟩ := exists_last_of_leftListOnto h
  exact List.append_ne_nil_of_right_ne_nil _ (List.cons_ne_nil last [])

/-- The members of a list, each read on its own. -/
theorem exists_of_mapM_leftList {α : Type} {key : String} {t : Tree} {ts : List Tree}
    {f : Tree → Lowered α} {as : List α} (hts : leftList key t = .ok ts) (h : ts.mapM f = .ok as) :
    as ≠ [] ∧ ∀ a ∈ as, ∃ u : Tree, u.tokens <:+: t.tokens ∧ f u = .ok a := by
  obtain ⟨hne, hinfix⟩ := infix_of_leftList hts
  obtain ⟨u, us, rfl⟩ := List.exists_cons_of_ne_nil hne
  refine ⟨Understood.ne_nil_of_mapM h, fun a ha => ?_⟩
  obtain ⟨v, hv, hva⟩ := Understood.exists_of_mem_mapM h a ha
  exact ⟨v, hinfix v hv, hva⟩

/-! ## Phrases and items -/

theorem exists_of_readPhrases {node t : Tree} {ps : List Phrase} (h : readPhrases node t = .ok ps) :
    ps ≠ [] ∧ ∀ p ∈ ps, ∃ u : Tree, u.tokens <:+: t.tokens ∧ readPhrase u = .ok p := by
  obtain ⟨ts, hts, h⟩ := Understood.exists_of_bind (of_bind_expect h)
  obtain ⟨hne, hpieces⟩ := exists_of_mapM_leftList hts h
  refine ⟨hne, fun p hp => ?_⟩
  obtain ⟨u, hu, hup⟩ := hpieces p hp
  exact ⟨u, hu, of_bind_expect hup⟩

/-- **An item is read from pieces of its tokens**: it has phrases, and each is read from one. -/
theorem exists_of_readItem {t : Tree} {i : Item} (h : readItem t = .ok i) :
    i.element.phrases ≠ [] ∧
      ∀ p ∈ i.element.phrases, ∃ u : Tree, u.tokens <:+: t.tokens ∧ readPhrase u = .ok p := by
  unfold readItem at h
  split at h
  · cases h
  · rename_i last hlast
    obtain ⟨element, helement, h⟩ := Understood.exists_of_bind (of_bind_expect h)
    obtain ⟨marks, _, h⟩ := Understood.exists_of_bind h
    obtain rfl := Except.ok.inj h
    have hinfix := infix_of_mem_childrenOf (List.mem_of_getLast? hlast)
    have hpieces : ∀ {node items ps}, items ∈ childrenOf last → readPhrases node items = .ok ps →
        ps ≠ [] ∧ ∀ p ∈ ps, ∃ u : Tree, u.tokens <:+: t.tokens ∧ readPhrase u = .ok p := by
      intro node items ps hitems hps
      obtain ⟨hne, hpieces⟩ := exists_of_readPhrases hps
      refine ⟨hne, fun p hp => ?_⟩
      obtain ⟨u, hu, hup⟩ := hpieces p hp
      exact ⟨u, hu.trans ((infix_of_mem_childrenOf hitems).trans hinfix), hup⟩
    show element.phrases ≠ [] ∧ _
    unfold readElement at helement
    split at helement
    · rename_i items hchildren
      obtain ⟨ps, hps, helement⟩ := Understood.exists_of_bind helement
      obtain rfl := Except.ok.inj helement
      exact hpieces (by simp [hchildren]) hps
    · rename_i mark items hchildren
      obtain ⟨m, _, helement⟩ := Understood.exists_of_bind (of_bind_expect helement)
      obtain ⟨ps, hps, helement⟩ := Understood.exists_of_bind helement
      obtain rfl := Except.ok.inj helement
      exact hpieces (by simp [hchildren]) hps
    · cases helement

/-- The items of a query are pieces of it. -/
theorem infix_of_itemNodes {t : Tree} {nodes : List Tree} (h : itemNodes t = .ok nodes) :
    ∀ u ∈ nodes, u.tokens <:+: t.tokens := by
  obtain ⟨ts, hts, h⟩ := Understood.exists_of_bind h
  intro u hu
  obtain ⟨v, hv, hvu⟩ := (exists_of_mapM_leftList hts h).2 u hu
  rw [← bind_pure (expect _ t v)] at hvu
  obtain rfl := Except.ok.inj (of_bind_expect hvu)
  exact hv

/-! ## Lists that are not empty -/

theorem isComplete_of_readPredicate {t : Tree} {p : Predicate} (h : readPredicate t = .ok p) :
    p.IsComplete := by
  unfold readPredicate at h
  split at h
  · split at h
    · obtain ⟨ts, hts, h⟩ := Understood.exists_of_bind h
      obtain ⟨vs, hvs, h⟩ := Understood.exists_of_bind h
      obtain rfl := Except.ok.inj h
      exact (exists_of_mapM_leftList hts hvs).1
    · split at h
      · obtain ⟨ps, _, h⟩ := Understood.exists_of_bind h
        obtain rfl := Except.ok.inj h
        trivial
      · split at h
        · obtain ⟨r, _, h⟩ := Understood.exists_of_bind h
          obtain rfl := Except.ok.inj h
          trivial
        · cases h
  · cases h

theorem isComplete_of_readPhrase {t : Tree} {p : Phrase} (h : readPhrase t = .ok p) :
    ∀ r, p.relation = some r → r.IsComplete := by
  unfold readPhrase at h
  split at h
  · obtain ⟨subject, _, h⟩ := Understood.exists_of_bind h
    obtain rfl := Except.ok.inj h
    exact fun _ hr => by cases hr
  · obtain ⟨subject, _, h⟩ := Understood.exists_of_bind h
    obtain ⟨direction, _, h⟩ := Understood.exists_of_bind (of_bind_expect h)
    obtain rfl := Except.ok.inj h
    intro r hr
    obtain rfl := Option.some.inj hr
    trivial
  · obtain ⟨subject, _, h⟩ := Understood.exists_of_bind h
    obtain ⟨family, _, h⟩ := Understood.exists_of_bind (of_bind_expect h)
    obtain ⟨predicate, hpredicate, h⟩ := Understood.exists_of_bind (of_bind_expect h)
    obtain rfl := Except.ok.inj h
    intro r hr
    obtain rfl := Option.some.inj hr
    exact isComplete_of_readPredicate hpredicate
  · cases h

/-- **An item that was read** has phrases, and no list of values in it is empty. -/
theorem isComplete_of_readItem {t : Tree} {i : Item} (h : readItem t = .ok i) : i.IsComplete := by
  obtain ⟨hne, hpieces⟩ := exists_of_readItem h
  refine ⟨hne, fun p hp => ?_⟩
  obtain ⟨u, _, hup⟩ := hpieces p hp
  exact isComplete_of_readPhrase hup

end PixQuery.Query
