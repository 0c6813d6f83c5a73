import PixQuery.Proofs.Grammar.Conflicts
import PixQuery.Proofs.Grammar.FirstFault

/-!
# What an error expects

Before the parser stops at a token it may have applied productions because that token can stand
behind their keys somewhere, only not here. The state it stops in then knows less than the one in
which the token was first seen. Nothing is lost when a production that competes with reading is of a
key behind which the same terminals can stand everywhere: either the token goes on with a sentence
after all, or the state had no other action, and every terminal that goes on with a sentence leads
through the same production.

Results:
* `Table.mem_expected`: what a state has an action for is expected in it.
* `inherited_welcomes`: pairs of `IsAlways` go on with a sentence wherever their key is waited for.
* `mem_expected_of_goesOn`: the first error expects all terminals that go on with a sentence.
-/

namespace PixQuery

open Bare (Moves next? ahead ofFrame)

namespace Grammar

variable {ps : List Production}

/-! ## What is expected in a state -/

/-- **What a state has an action for is expected.** -/
theorem Built.mem_expected {t : Table} (h : Built ps t) {k : Nat} {u : String} {a : Action}
    (ha : t.action k u = some a) : u ∈ t.expected k := by
  obtain ⟨hu, set, out, hset, hout⟩ := h.exists_state_of_action ha
  rw [h.action_eq_head hset hout hu] at ha
  have hrow : t.actions[k]? =
      some ((Grammar.terminals ps).map fun u => (cellAt ps set out u).head?) := by
    rw [h.actions, List.getElem?_map, cells_getElem? hset hout, Option.map_some, List.map_map]
    rfl
  obtain ⟨j, hj⟩ := List.mem_iff_getElem?.mp hu
  rw [Table.expected, hrow, h.terminals]
  refine List.mem_filterMap.mpr ⟨(some a, u), List.mem_of_getElem? (i := j) ?_, rfl⟩
  simp [List.getElem?_zip_eq_some, hj, ha]

/-! ## Going on with a sentence -/

/-- Some sentence begins with the terminals and has `t` behind them; the end is behind them when
they are a sentence. -/
def GoesOn (ps : List Production) (ts : List String) (t : String) : Prop :=
  ∃ us, ahead us = t ∧ IsSentence ps (ts ++ us)

theorem BeginsSentence.goesOn {ts : List String} {t : String}
    (h : BeginsSentence ps (ts ++ [t])) : GoesOn ps ts t := by
  obtain ⟨us, h⟩ := h
  exact ⟨t :: us, rfl, by simpa using h⟩

theorem IsSentence.goesOn {ts : List String} (h : IsSentence ps ts) : GoesOn ps ts eof :=
  ⟨[], rfl, by simpa using h⟩

/-- Something that the symbol stands for begins with the terminal. -/
def CanBegin (ps : List Production) (x : Sym) (t : String) : Prop :=
  ∃ (d : Derivation) (us : List String), d.IsValid ps ∧ d.symbol ps = x ∧ d.leaves = t :: us

theorem canBegin_of_mem_firstOf {first : List (String × String)}
    (hfirst : ∀ pair ∈ first, CanBegin ps (.nonterminal pair.1) pair.2) {x : Sym} {t : String}
    (h : t ∈ firstOf first x) : CanBegin ps x t := by
  cases x with
  | terminal u =>
    obtain rfl := List.mem_singleton.mp h
    exact ⟨.leaf t, [], trivial, rfl, rfl⟩
  | nonterminal a => exact hfirst (a, t) (mem_image.mp h)

/-- **The first pairs tell no more** than what can begin a nonterminal. -/
theorem canBegin_of_mem_firstPairs (hps : WellDefined ps) (hprod : Productive ps) :
    ∀ pair ∈ firstPairs ps, CanBegin ps (.nonterminal pair.1) pair.2 := by
  refine saturate_invariant (fun first hfirst => ?_) _ fun _ h => absurd h List.not_mem_nil
  rintro ⟨a, t⟩ h
  obtain ⟨p, hp, rfl, ht⟩ := mem_firstStep.mp h
  obtain ⟨d, us, hd, hsymbol, hleaves⟩ := canBegin_of_mem_firstOf hfirst ht
  obtain ⟨ds, hds, hsymbols⟩ :=
    hprod.exists_derivations hps hp (List.subset_cons_self p.first p.others)
  obtain ⟨n, hn⟩ := exists_numbered_of_mem hp
  refine ⟨.node n (d :: ds), us ++ Derivation.leavesOf ds, ⟨⟨p, hn, ?_⟩, hd, hds⟩,
    Derivation.symbol_node hn _, ?_⟩
  · rw [List.map_cons, hsymbol, hsymbols, Production.body]
  · rw [Derivation.leaves, Derivation.leavesOf, hleaves, List.cons_append]

/-! ## What can stand behind a key everywhere -/

/-- Behind its own key some production of the key goes on with the terminal. -/
def ExtendsItself (ps : List Production) (first : List (String × String)) (a t : String) : Prop :=
  ∃ q ∈ ps, q.key = a ∧ q.first = .nonterminal a ∧ ∃ x ∈ q.others.head?, t ∈ firstOf first x

/-- Some production with the key of `p`, and with the same `d` symbols in front, goes on with the
terminal. -/
def GoesOnAs (ps : List Production) (first always : List (String × String)) (p : Production)
    (d : Nat) (t : String) : Prop :=
  ∃ q ∈ ps, q.key = p.key ∧ q.body.take d = p.body.take d ∧
    t ∈ behind first always q.key (q.body.drop d)

/-- In each pair the terminal can stand behind the nonterminal wherever that stands: behind all
sentences it is the end, and in a body some production of the same key goes on with it. -/
def IsAlways (ps : List Production) (first always : List (String × String)) : Prop :=
  ∀ pair ∈ always, ExtendsItself ps first pair.1 pair.2 ∨
    (pair.1 = startKey ps → pair.2 = eof) ∧
      ∀ p ∈ ps, ∀ d < p.body.length, p.body[d]? = some (.nonterminal pair.1) →
        p.key = pair.1 ∧ d = 0 ∨ GoesOnAs ps first always p (d + 1) pair.2

instance (first : List (String × String)) (a t : String) : Decidable (ExtendsItself ps first a t) :=
  inferInstanceAs (Decidable (∃ q ∈ ps, q.key = a ∧ q.first = .nonterminal a ∧
    ∃ x ∈ q.others.head?, t ∈ firstOf first x))

instance (first always : List (String × String)) (p : Production) (d : Nat) (t : String) :
    Decidable (GoesOnAs ps first always p d t) :=
  inferInstanceAs (Decidable (∃ q ∈ ps, q.key = p.key ∧ q.body.take d = p.body.take d ∧
    t ∈ behind first always q.key (q.body.drop d)))

instance (first always : List (String × String)) : Decidable (IsAlways ps first always) :=
  inferInstanceAs (Decidable (∀ pair ∈ always, ExtendsItself ps first pair.1 pair.2 ∨
    (pair.1 = startKey ps → pair.2 = eof) ∧
      ∀ p ∈ ps, ∀ d < p.body.length, p.body[d]? = some (.nonterminal pair.1) →
        p.key = pair.1 ∧ d = 0 ∨ GoesOnAs ps first always p (d + 1) pair.2))

end Grammar

open Grammar (Production Sym WellDefined Productive IsSentence BeginsSentence
  GoesOn CanBegin IsAlways stateAt? startKey numbered? followPairs Leads)

namespace Parser

variable {ps : List Production} {stack : List Frame} {set : Grammar.ItemSet}

/-- A production with the same key and the same symbols in front of the dot is in the state too. -/
theorem mem_of_same_front {n m : Nat} {p q : Production} (hp : numbered? ps n = some p)
    (hq : numbered? ps m = some q) (hkey : q.key = p.key) : ∀ {d : Nat} {stack : List Frame}
    {set : Grammar.ItemSet}, Spells ps stack → stateAt? ps (top stack) = some set → ⟨n, d⟩ ∈ set →
      q.body.take d = p.body.take d → ⟨m, d⟩ ∈ set
  | 0, _, _, _, hset, hi, _ => by
    obtain ⟨j, hj, hwaits⟩ := Grammar.exists_waiting hset hp hi
    exact Grammar.closed_of_stateAt hset j hj _ hwaits m q hq hkey
  | d + 1, _, set, .nil, hset, hi, _ => by
    rw [top_nil, Grammar.stateAt_zero, Option.some.injEq] at hset
    exact absurd (Grammar.mem_startSet_dot (hset ▸ hi)) (Nat.succ_ne_zero d)
  | d + 1, _, set, .cons hl hbelow, hset, hi, hfront => by
    obtain ⟨set', hset'⟩ := exists_stateAt_top hbelow
    obtain rfl := Option.some.inj (hset.symm.trans (Grammar.stateAt_of_leads hset' hl))
    obtain ⟨hi', hnext⟩ := Grammar.mem_advance_iff.mp hi
    have hbefore : q.body.take d = p.body.take d := by
      simpa [List.take_take] using congrArg (List.take d) hfront
    have hat : q.body[d]? = p.body[d]? := by
      simpa [List.getElem?_take_of_lt] using congrArg (fun xs => xs[d]?) hfront
    refine Grammar.mem_advance_iff.mpr
      ⟨mem_of_same_front hp hq hkey hbelow hset' hi' hbefore, ?_⟩
    rw [next_eq_getElem? hp] at hnext
    rw [next_eq_getElem? hq, hat, hnext]

/-- **The stack goes on** behind whatever the nonterminal stands for with each terminal that is
paired with it. -/
def Welcomes (ps : List Production) (always : List (String × String)) (stack : List Frame)
    (a : String) : Prop :=
  AllDerived ps stack → ∀ t, (a, t) ∈ always → ∀ d : Derivation, d.IsValid ps →
    d.symbol ps = .nonterminal a → GoesOn ps (terminalsOn stack ++ d.leaves) t

variable {first always : List (String × String)}

/-- Some derivations of a body with a nonterminal in front go on with what can begin the next
symbol. -/
theorem exists_behind (hps : WellDefined ps) (hprod : Productive ps) {q : Production} (hq : q ∈ ps)
    {x : Sym} {rest : List Sym} (hrest : x :: rest ⊆ q.body) {t : String} (ht : CanBegin ps x t) :
    ∃ (es : List Derivation) (us : List String), Derivation.AllValid ps es ∧
      es.map (Derivation.symbol ps) = x :: rest ∧ Derivation.leavesOf es = t :: us := by
  obtain ⟨e, us, he, rfl, hleaves⟩ := ht
  obtain ⟨es, hes, hsymbols⟩ := hprod.exists_derivations hps hq
    (List.Subset.trans (List.subset_cons_self _ rest) hrest)
  exact ⟨e :: es, us ++ Derivation.leavesOf es, ⟨he, hes⟩, by rw [List.map_cons, hsymbols],
    by rw [Derivation.leavesOf, hleaves, List.cons_append]⟩

/-- What extends itself goes on wherever it fits. -/
theorem goesOn_of_extendsItself (hps : WellDefined ps) (hprod : Productive ps)
    (hfirst : ∀ pair ∈ first, CanBegin ps (.nonterminal pair.1) pair.2) {a t : String}
    (h : Grammar.ExtendsItself ps first a t) (hfits : Fits ps stack a)
    (hderived : AllDerived ps stack) {d : Derivation} (hd : d.IsValid ps)
    (hsymbol : d.symbol ps = .nonterminal a) : GoesOn ps (terminalsOn stack ++ d.leaves) t := by
  obtain ⟨q, hq, rfl, hqfirst, x, hx, ht⟩ := h
  obtain ⟨rest, hrest⟩ := List.head?_eq_some_iff.mp hx
  have hbody : q.body = .nonterminal q.key :: x :: rest := by
    rw [Production.body, hqfirst, hrest]
  obtain ⟨es, us, hes, hsymbols, hleaves⟩ := exists_behind hps hprod hq
    (hbody ▸ List.subset_cons_self _ _) (Grammar.canBegin_of_mem_firstOf hfirst ht)
  obtain ⟨n, hn⟩ := Grammar.exists_numbered_of_mem hq
  obtain ⟨vs, hvs⟩ := hfits hderived
  have hsentence := hvs (.node n (d :: es))
    ⟨⟨q, hn, by rw [List.map_cons, hsymbol, hsymbols, hbody]⟩, hd, hes⟩
    (Derivation.symbol_node hn _)
  rw [Derivation.leaves, Derivation.leavesOf, hleaves] at hsentence
  exact ⟨t :: us ++ vs, rfl, by simpa only [List.append_assoc] using hsentence⟩

/-- What another production of the key goes on with stands behind the nonterminal in front of the
dot's next place, and at the end of its body it is what stands behind the key. -/
theorem goesOn_of_goesOnAs (hps : WellDefined ps) (hprod : Productive ps)
    (hfirst : ∀ pair ∈ first, CanBegin ps (.nonterminal pair.1) pair.2) {n d : Nat}
    {p : Production} {a t : String} (hs : Spells ps stack)
    (hset : stateAt? ps (top stack) = some set) (hp : numbered? ps n = some p)
    (hi : ⟨n, d⟩ ∈ set) (hget : p.body[d]? = some (.nonterminal a))
    (h : Grammar.GoesOnAs ps first always p (d + 1) t)
    (hkey : Welcomes ps always (stack.drop d) p.key) (hderived : AllDerived ps stack)
    {e : Derivation} (he : e.IsValid ps) (hsymbol : e.symbol ps = .nonterminal a) :
    GoesOn ps (terminalsOn stack ++ e.leaves) t := by
  obtain ⟨q, hq, hqkey, hfront, ht⟩ := h
  obtain ⟨m, hm⟩ := Grammar.exists_numbered_of_mem hq
  have hqget : q.body[d]? = some (.nonterminal a) := by
    rw [← hget]
    simpa [List.getElem?_take_of_lt] using congrArg (fun xs => xs[d]?) hfront
  have hqdrop : q.body.drop d = .nonterminal a :: q.body.drop (d + 1) := by
    obtain ⟨hlt, hat⟩ := List.getElem?_eq_some_iff.mp hqget
    rw [List.drop_eq_getElem_cons hlt, hat]
  have hi' : ⟨m, d⟩ ∈ set := mem_of_same_front hp hm hqkey hs hset hi <| by
    simpa [List.take_take] using congrArg (List.take d) hfront
  rw [terminalsOn_take_drop d stack]
  cases hrest : q.body.drop (d + 1) with
  | nil =>
    obtain ⟨e', he', hsymbol', hleaves⟩ := @exists_finished _ _ _ _ _ _ hs hderived hset hm hi' [e]
      ⟨he, trivial⟩ (by rw [hqdrop, hrest, List.map_singleton, hsymbol])
    rw [hrest] at ht
    have hgoes := hkey (hderived.take_drop d).2 t (hqkey ▸ Grammar.mem_image.mp ht) e' he'
      (hqkey ▸ hsymbol')
    simpa [hleaves, Derivation.leavesOf] using hgoes
  | cons x rest =>
    rw [hrest] at ht
    obtain ⟨es, us, hes, hsymbols, hafter⟩ := exists_behind hps hprod hq
      (hrest ▸ List.drop_subset _ _) (Grammar.canBegin_of_mem_firstOf hfirst ht)
    obtain ⟨e', he', hsymbol', hleaves⟩ := @exists_finished _ _ _ _ _ _ hs hderived hset hm hi'
      (e :: es) ⟨he, hes⟩ (by rw [hqdrop, hrest, List.map_cons, hsymbol, hsymbols])
    obtain ⟨vs, hvs⟩ := (inherited_fits hps hprod).key hs hset hp hi (hderived.take_drop d).2
    have hsentence := hvs e' he' (hqkey ▸ hsymbol')
    rw [hleaves, Derivation.leavesOf, hafter] at hsentence
    exact ⟨t :: us ++ vs, rfl, by simpa only [List.append_assoc] using hsentence⟩

/-- **What can always stand behind a key** can stand behind it wherever it is waited for. -/
theorem inherited_welcomes (hps : WellDefined ps) (hprod : Productive ps)
    (hfirst : ∀ pair ∈ first, CanBegin ps (.nonterminal pair.1) pair.2)
    (h : IsAlways ps first always) : Inherited ps (Welcomes ps always) where
  start := by
    intro hderived t ht d hd hsymbol
    rcases h _ ht with hself | ⟨hend, _⟩
    · exact goesOn_of_extendsItself hps hprod hfirst hself (inherited_fits hps hprod).start hderived
        hd hsymbol
    · obtain rfl : t = Grammar.eof := hend rfl
      exact Grammar.IsSentence.goesOn ⟨d, ⟨hd, hsymbol⟩, rfl⟩
  step := by
    intro stack set n d p a hs hset hi hp hget hkey hderived t ht e he hsymbol
    rcases h _ ht with hself | ⟨_, hbodies⟩
    · have hfits := (inherited_fits hps hprod).waiting hs hset hi ((next_eq_getElem? hp).trans hget)
      exact goesOn_of_extendsItself hps hprod hfirst hself hfits hderived he hsymbol
    · obtain ⟨hlt, _⟩ := List.getElem?_eq_some_iff.mp hget
      rcases hbodies p (Grammar.mem_of_numbered hp) d hlt hget with ⟨rfl, rfl⟩ | hq
      · exact hkey hderived t ht e he hsymbol
      · exact goesOn_of_goesOnAs hps hprod hfirst hs hset hp hi hget hq hkey hderived he hsymbol

/-! ## Where a token could be read instead -/

/-- The symbol stands in front of another one in some body. -/
def StandsInFront (ps : List Production) (x : Sym) : Prop := ∃ q ∈ ps, x ∈ q.body.dropLast

instance (x : Sym) : Decidable (StandsInFront ps x) :=
  inferInstanceAs (Decidable (∃ q ∈ ps, x ∈ q.body.dropLast))

/-- A state behind a symbol that goes on has a begun item that goes on. -/
theorem exists_begun {k : Nat} {x : Sym} {set' : Grammar.ItemSet} (hset : stateAt? ps k = some set)
    (hadvance : set = Grammar.advance ps set' x) {i : Grammar.Item} {y : Sym} (hi : i ∈ set)
    (hnext : i.next? ps = some y) :
    ∃ n d z, ⟨n, d + 1⟩ ∈ set ∧ (Grammar.Item.mk n (d + 1)).next? ps = some z := by
  have hbegun : ∀ j ∈ set, j.dot ≠ 0 ∨ j.production = 0 → ∀ z, j.next? ps = some z →
      ∃ n d z, ⟨n, d + 1⟩ ∈ set ∧ (Grammar.Item.mk n (d + 1)).next? ps = some z := by
    rintro ⟨n, _ | d⟩ hj hor z hz
    · obtain rfl : n = 0 := hor.resolve_left fun h => h rfl
      exact absurd (hadvance ▸ hj) (Grammar.zero_not_mem_advance _ _)
    · exact ⟨n, d, z, hj, hz⟩
  by_cases hor : i.dot ≠ 0 ∨ i.production = 0
  · exact hbegun i hi hor y hnext
  · obtain ⟨n, d⟩ := i
    obtain ⟨rfl, hn⟩ : d = 0 ∧ n ≠ 0 := by simpa using hor
    obtain ⟨p, hp⟩ := Grammar.exists_numbered hn (Grammar.production_le_of_next hnext)
    exact (Grammar.undotted_induction hset (fun j hj hor b hb => hbegun j hj hor _ hb)
      (fun _ _ _ _ _ h _ => h) hp hi).1

/-- **Where a production is complete and a token can be read**, the last symbol of the production
stands in front of another one in some body. -/
theorem standsInFront_of_leads (hs : Spells ps stack) (hset : stateAt? ps (top stack) = some set)
    {n m : Nat} {p : Production} {u : String} (hp : numbered? ps n = some p)
    (hi : ⟨n, p.body.length⟩ ∈ set) (hl : Leads ps (top stack) (.terminal u) m) :
    ∃ x ∈ p.body.getLast?, StandsInFront ps x := by
  obtain ⟨e, he⟩ := Nat.exists_eq_succ_of_ne_zero
    (List.length_eq_zero_iff.not.mpr p.body_ne_nil)
  rw [he] at hi
  cases hs with
  | nil =>
    rw [top_nil, Grammar.stateAt_zero, Option.some.injEq] at hset
    exact absurd (Grammar.mem_startSet_dot (hset ▸ hi)) (Nat.succ_ne_zero e)
  | @cons f below hbelow hspells =>
    obtain ⟨set', hset'⟩ := exists_stateAt_top hspells
    have hadvance := Option.some.inj (hset.symm.trans (Grammar.stateAt_of_leads hset' hbelow))
    have hlast := (Grammar.mem_advance_iff.mp (hadvance ▸ hi)).2
    rw [next_eq_getElem? hp] at hlast
    obtain ⟨_, hsame, i, hi', hnext⟩ := Grammar.exists_next_of_leads hl
    obtain rfl := Option.some.inj (hset.symm.trans hsame)
    obtain ⟨k, d, z, hk, hz⟩ := exists_begun hset hadvance hi' hnext
    have hseen := (Grammar.mem_advance_iff.mp (hadvance ▸ hk)).2
    have hk0 : k ≠ 0 := by
      rintro rfl
      simp [Grammar.Item.next?, Grammar.bodyOf] at hz
    obtain ⟨q, hq⟩ := Grammar.exists_numbered hk0 (Grammar.production_le_of_next hz)
    rw [next_eq_getElem? hq] at hseen hz
    refine ⟨f.tree.symbol, ?_, q, Grammar.mem_of_numbered hq, ?_⟩
    · rw [List.getLast?_eq_getElem?, he]
      exact hlast
    · have hlt := (List.getElem?_eq_some_iff.mp hz).1
      refine List.mem_of_getElem? (i := d) ?_
      rw [List.getElem?_dropLast, if_pos (by omega), hseen]

/-- **A grammar without reserve**: at most one production is complete in a state, and where a
production is complete and a token could be read, all that can stand behind its key can stand behind
it everywhere. -/
structure IsForthright (ps : List Production) (always : List (String × String)) : Prop where
  complete : ∀ k set, stateAt? ps k = some set → ∀ i ∈ set, ∀ j ∈ set,
    i.isComplete ps = true → j.isComplete ps = true → i = j
  welcomes : Inherited ps (Welcomes ps always)
  applied : ∀ p ∈ ps, (∃ x ∈ p.body.getLast?, StandsInFront ps x) → ∀ t,
    (p.key, t) ∈ followPairs ps → (p.key, t) ∈ always

/-- What can stand behind the key of such a production stands behind the stack. -/
theorem IsForthright.goesOn (h : IsForthright ps always) (hs : Spells ps stack)
    (hderived : AllDerived ps stack) (hset : stateAt? ps (top stack) = some set) {n m : Nat}
    {p : Production} {t u : String} (hp : numbered? ps n = some p)
    (hi : ⟨n, p.body.length⟩ ∈ set) (hfollow : (p.key, t) ∈ followPairs ps)
    (hl : Leads ps (top stack) (.terminal u) m) : GoesOn ps (terminalsOn stack) t := by
  have halways := h.applied p (Grammar.mem_of_numbered hp)
    (standsInFront_of_leads hs hset hp hi hl) t hfollow
  obtain ⟨e, he, hsymbol, hleaves⟩ := @exists_finished _ _ _ _ _ _ hs hderived hset hp hi []
    trivial (by simp)
  have hgoes := h.welcomes.key hs hset hp hi (hderived.take_drop _).2 t halways e he hsymbol
  rw [terminalsOn_take_drop p.body.length stack]
  simpa [hleaves, Derivation.leavesOf] using hgoes

/-- At most one item of a state with a calm cover is complete. -/
theorem complete_unique_of_isCalm {names : List String} {follow : List (Nat × Nat)} {k : Nat}
    {cov : Grammar.ItemSet} (hset : stateAt? ps k = some set) (hcov : set ⊆ cov)
    (hcalm : Grammar.Outline.isCalm (Grammar.outlines names ps) follow cov = true)
    {i j : Grammar.Item} (hi : i ∈ set) (hj : j ∈ set) (hic : i.isComplete ps = true)
    (hjc : j.isComplete ps = true) : i = j := by
  have hsub := Grammar.complete_subset names hset hcov
  have hi' := hsub (List.mem_filter.mpr ⟨hi, hic⟩)
  have hj' := hsub (List.mem_filter.mpr ⟨hj, hjc⟩)
  unfold Grammar.Outline.isCalm at hcalm
  split at hcalm
  · rename_i hnone
    rw [hnone] at hi'
    cases hi'
  · rename_i l hone
    rw [hone] at hi' hj'
    rw [List.mem_singleton.mp hi', List.mem_singleton.mp hj']
  · cases hcalm

/-- **A walk through calm covers and two lists of pairs** show that a grammar is without reserve. -/
theorem isForthright_of_walk (hps : WellDefined ps) (hprod : Productive ps)
    {follow : List (String × String)} {names : List String} {n : Nat}
    (hwalk : Grammar.walk (Grammar.Outline.kernelsAfter? (Grammar.outlines names ps)
      (Grammar.outlinePairs names follow)) n [[⟨0, 0⟩]] [[⟨0, 0⟩]] = true)
    (hfirst : first ⊆ Grammar.firstPairs ps) (hfollow : followPairs ps ⊆ follow)
    (halways : IsAlways ps first always)
    (happlied : ∀ p ∈ ps, (∃ x ∈ p.body.getLast?, StandsInFront ps x) →
      ∀ pair ∈ follow, pair.1 = p.key → pair ∈ always) : IsForthright ps always where
  complete := by
    intro k set hset i hi j hj hic hjc
    obtain ⟨cov, hcov, hcalm⟩ := Grammar.exists_cover_of_walk hwalk _ (List.mem_of_getElem? hset)
    exact complete_unique_of_isCalm hset hcov hcalm hi hj hic hjc
  welcomes := inherited_welcomes hps hprod
    (fun pair h => Grammar.canBegin_of_mem_firstPairs hps hprod pair (hfirst h)) halways
  applied p hp hfront t ht := happlied p hp hfront _ (hfollow ht) rfl

/-! ## Up to the first fault -/

variable {g : Grammar} {tokens : List Token} {c : Configuration} {stop : Nat}

/-- Before a terminal that no sentence goes on with, the same moves are made on every word that goes
on with a sentence. -/
def Impartial (g : Grammar) (c : Configuration) : Prop :=
  ¬ GoesOn g.productions (terminalsOn c.stack) (lookahead c.rest) →
    ∀ us, GoesOn g.productions (terminalsOn c.stack) (ahead us) →
      ∃ n, Moves g n ⟨[], terminalsOn c.stack ++ us⟩ ⟨c.stack.map ofFrame, us⟩

/-- The moves on a sentence do not stop before it is accepted. -/
theorem exists_action_of_goesOn (hg : g.IsBuilt) {u : String}
    (h : GoesOn g.productions (terminalsOn stack) u)
    (hmoves : ∀ us, ahead us = u →
      ∃ n, Moves g n ⟨[], terminalsOn stack ++ us⟩ ⟨stack.map ofFrame, us⟩) :
    ∃ a, g.table.action (top stack) u = some a := by
  obtain ⟨us, rfl, d, hd, hleaves⟩ := h
  obtain ⟨q, haccepted, haccept⟩ := Derivation.exists_accepted hg.wellDefined rfl hg.built hd
  obtain ⟨n, hn⟩ := hmoves us rfl
  rw [hleaves] at haccepted
  cases haction : g.table.action (top stack) (ahead us) with
  | some a => exact ⟨a, rfl⟩
  | none =>
    have hstop : next? g ⟨stack.map ofFrame, us⟩ = none := by
      simp only [next?, Bare.top_ofFrame, haction]
    obtain ⟨hstack, rfl⟩ := Bare.mk.inj
      (haccepted.unique hn (Derivation.next_eq_none_of_accept haccept) hstop).2
    have htop : top stack = q := by
      rw [← Bare.top_ofFrame, ← hstack]
      rfl
    rw [htop] at haction
    exact absurd (haction.symm.trans haccept) (by simp)

/-- **Steps keep a run impartial.** A token that was read is right. A production that is applied
before a wrong terminal is applied before all that are right, or the wrong one was none. -/
theorem keptBy_impartial (hg : g.IsBuilt) (hf : IsForthright g.productions always) :
    KeptBy g stop tokens (Impartial g) := by
  intro c c' hquiet himpartial hgo hfault
  generalize hstep : step g stop c = s at hgo hfault
  have heffect := hstep ▸ effect_step hg hquiet.consistent.spells stop
  cases heffect with
  | shift hrest hl =>
    obtain rfl := Outcome.go.inj hgo
    exact fun _ us _ => hquiet.moves_shift hg hrest hl us
  | @reduce n m set p range hset hp hi hfollow hl =>
    obtain rfl := Outcome.go.inj hgo
    intro hwrong us hus
    rw [terminalsOn_reduced] at hwrong hus
    have hmoves := himpartial hwrong
    refine exists_moves_reduce hg (hmoves us hus) hset hp hi ?_ hl
    obtain ⟨a, ha⟩ := exists_action_of_goesOn hg hus fun vs hvs => hmoves vs (hvs ▸ hus)
    have hcomplete : (Grammar.Item.mk n p.body.length).isComplete g.productions = true := by
      simp [Grammar.Item.isComplete, Grammar.bodyOf_of_numbered hp]
    cases (hg.built.action_eq_some_iff hg.wellDefined).mp ha with
    | shift hread =>
      exact absurd (hf.goesOn hquiet.consistent.spells hquiet.consistent.derivations hset hp hi
        hfollow hread) hwrong
    | @reduce set' n' p' hset' hp' hi' hfollow' =>
      obtain rfl := Option.some.inj (hset.symm.trans hset')
      obtain ⟨rfl, _⟩ := Grammar.Item.mk.inj <| hf.complete _ _ hset _ hi _ hi' hcomplete <| by
        simp [Grammar.Item.isComplete, Grammar.bodyOf_of_numbered hp']
      exact Option.some.inj (hp'.symm.trans hp) ▸ hfollow'
    | accept hset' hi' =>
      obtain rfl := Option.some.inj (hset.symm.trans hset')
      obtain ⟨rfl, _⟩ := Grammar.Item.mk.inj <| hf.complete _ _ hset _ hi _ hi' hcomplete <| by
        simp [Grammar.Item.isComplete, Grammar.bodyOf]
      exact absurd rfl (Grammar.ne_zero_of_numbered hp)
  | accept => cases hgo
  | fault => simp [recovery, ParseEvent.fault?] at hfault

/-- **Where an impartial run stops**, all that goes on with a sentence is expected. -/
theorem Quiet.mem_expected (hg : g.IsBuilt) (hquiet : Quiet g tokens c) (himpartial : Impartial g c)
    (haction : g.table.action (top c.stack) (lookahead c.rest) = none) {u : String}
    (h : GoesOn g.productions (terminalsOn c.stack) u) : u ∈ g.table.expected (top c.stack) := by
  have hwrong : ¬ GoesOn g.productions (terminalsOn c.stack) (lookahead c.rest) := by
    intro hright
    obtain ⟨a, ha⟩ := exists_action_of_goesOn hg hright hquiet.moves
    rw [haction] at ha
    cases ha
  obtain ⟨a, ha⟩ := exists_action_of_goesOn hg h fun us hus => himpartial hwrong us (hus ▸ h)
  exact hg.built.mem_expected ha

end Parser

namespace SyntaxFault

/-- The terminals that could have stood where the parser stopped. -/
def expected : SyntaxFault → List String
  | unexpectedToken _ expected _ => expected
  | unexpectedEnd expected _ => expected

end SyntaxFault

namespace Grammar

open PixQuery.Parser (IsForthright Impartial keptBy_impartial)

variable {g : Grammar} {tokens : List Token} {always : List (String × String)}

/-- **The first error expects all that goes on with a sentence**, in a grammar without reserve. -/
theorem mem_expected_of_goesOn (hg : g.IsBuilt) (hprod : Productive g.productions)
    (hf : IsForthright g.productions always) {fault : SyntaxFault}
    (hfault : (g.parse tokens).errors.head? = some fault) :
    ∃ i, IsBehind g.productions tokens i fault ∧
      ∀ t, GoesOn g.productions (terminalsOf (tokens.take i)) t → t ∈ fault.expected := by
  have hne : tokens ≠ [] := by
    rintro rfl
    cases hfault
  have hnot : ¬ IsSentence g.productions (terminalsOf tokens) := by
    intro h
    rw [errors_of_isSentence hg h] at hfault
    cases hfault
  obtain ⟨n, hle, hn⟩ := @Parser.halts _ (Parser.stopOf tokens) hg hprod tokens
  obtain ⟨⟨stack, rest⟩, hquiet, himpartial, haction, hfirst⟩ :=
    (Parser.first_fault hg (keptBy_impartial hg hf) hn (Parser.quiet_start g tokens)
      (fun _ us _ => ⟨0, .refl ⟨[], us⟩⟩) _ hle).resolve_left hnot
  rw [errors_parse hne, hfirst, Option.some_inj] at hfault
  subst hfault
  obtain ⟨i, hbehind, hterminals⟩ := exists_isBehind hg hprod hquiet haction
  refine ⟨i, hbehind, fun t ht => ?_⟩
  have hmem := hquiet.mem_expected hg himpartial haction (hterminals ▸ ht)
  cases rest with
  | nil => exact hmem
  | cons _ _ => exact hmem

end Grammar

end PixQuery
