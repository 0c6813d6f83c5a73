import PixQuery.Proofs.Grammar.Machine
import PixQuery.Proofs.Grammar.Soundness

/-!
# Every sentence is parsed, in one way

A derivation is pushed onto the stack from any state that has an item with its symbol behind the
dot: closure holds its production, the edges lead along its children, and what stands behind each
child is in the follow set of its symbol. So the machine makes one move for each leaf and node of a
derivation of the start key and then accepts. As its moves are determined, there is no second
derivation of the same terminals.

Results:
* `moves_push`, `moves_pushAll`: a derivation is pushed in as many moves as it has leaves and nodes.
* `derivation_unique`: a built grammar has one derivation for each sentence.
-/

namespace PixQuery

open Grammar (WellDefined Built stateAt? startKey followPairs firstPairs firstOf numbered? keyOf
  Leads)

namespace Derivation

variable {ps : List Grammar.Production} {g : Grammar}

/-- A valid derivation of the start key. -/
structure Derives (ps : List Grammar.Production) (d : Derivation) : Prop where
  valid : d.IsValid ps
  start : d.symbol ps = .nonterminal (startKey ps)

theorem symbol_node {n : Nat} {p : Grammar.Production} (hp : numbered? ps n = some p)
    (children : List Derivation) : (node n children).symbol ps = .nonterminal p.key := by
  rw [symbol, Grammar.keyOf_of_numbered hp]

/-- A valid derivation begins with a terminal that can begin its symbol. -/
theorem exists_first : ∀ {d : Derivation}, d.IsValid ps →
    ∃ t ts, d.leaves = t :: ts ∧ t ∈ firstOf (firstPairs ps) (d.symbol ps)
  | leaf t, _ => ⟨t, [], rfl, List.mem_singleton.mpr rfl⟩
  | node n [], ⟨⟨p, _, hbody⟩, _⟩ => absurd hbody.symm p.body_ne_nil
  | node n (c :: cs), ⟨⟨p, hp, hbody⟩, hchildren⟩ => by
    obtain ⟨t, ts, hleaves, ht⟩ := exists_first hchildren.1
    have hfirst : c.symbol ps = p.first := (List.cons.inj hbody).1
    refine ⟨t, ts ++ leavesOf cs, by rw [leaves, leavesOf, hleaves]; rfl, ?_⟩
    rw [symbol_node hp]
    exact Grammar.mem_image.mpr (Grammar.first_closed (Grammar.mem_of_numbered hp) (hfirst ▸ ht))

mutual

/-- A valid derivation ends with a terminal that can end its symbol. -/
theorem exists_last {ends : List (String × String)}
    (hends : ∀ p ∈ ps, ∀ x ∈ p.body.getLast?, ∀ t ∈ firstOf ends x, (p.key, t) ∈ ends) :
    ∀ {d : Derivation}, d.IsValid ps →
      ∃ ts t, d.leaves = ts ++ [t] ∧ t ∈ firstOf ends (d.symbol ps)
  | leaf t, _ => ⟨[], t, rfl, List.mem_singleton.mpr rfl⟩
  | node n [], ⟨⟨p, _, hbody⟩, _⟩ => absurd hbody.symm p.body_ne_nil
  | node n (c :: cs), ⟨⟨p, hp, hbody⟩, hchildren⟩ => by
    obtain ⟨ts, t, hleaves, x, hx, ht⟩ := exists_lastOf hends hchildren (List.cons_ne_nil c cs)
    refine ⟨ts, t, hleaves, ?_⟩
    rw [symbol_node hp]
    exact Grammar.mem_image.mpr (hends p (Grammar.mem_of_numbered hp) x (hbody ▸ hx) t ht)

theorem exists_lastOf {ends : List (String × String)}
    (hends : ∀ p ∈ ps, ∀ x ∈ p.body.getLast?, ∀ t ∈ firstOf ends x, (p.key, t) ∈ ends) :
    ∀ {ds : List Derivation}, AllValid ps ds → ds ≠ [] → ∃ ts t, leavesOf ds = ts ++ [t] ∧
      ∃ x ∈ (ds.map (symbol ps)).getLast?, t ∈ firstOf ends x
  | [], _, hne => absurd rfl hne
  | [d], ⟨hd, _⟩, _ => by
    obtain ⟨ts, t, hleaves, ht⟩ := exists_last hends hd
    exact ⟨ts, t, by rw [leavesOf, leavesOf, List.append_nil, hleaves], _, rfl, ht⟩
  | d :: e :: es, ⟨_, hes⟩, _ => by
    obtain ⟨ts, t, hleaves, x, hx, ht⟩ := exists_lastOf hends hes (List.cons_ne_nil e es)
    exact ⟨d.leaves ++ ts, t, by rw [leavesOf, hleaves, List.append_assoc], x, hx, ht⟩

end

/-! ## Pushing a derivation -/

open Bare

theorem ahead_of_first {d : Derivation} (hd : d.IsValid ps) (rest : List String) :
    ahead (d.leaves ++ rest) ∈ firstOf (firstPairs ps) (d.symbol ps) := by
  obtain ⟨t, ts, hleaves, ht⟩ := exists_first hd
  rw [hleaves]
  exact ht

/-- What stands behind a child of a production is in the follow set of its symbol. -/
theorem follow_of_child (hps : WellDefined ps) {n : Nat} {p : Grammar.Production}
    {before : List Grammar.Sym} {d : Derivation} {ds : List Derivation} {rest : List String}
    (hp : numbered? ps n = some p) (hbody : p.body = before ++ (d :: ds).map (symbol ps))
    (hds : AllValid ps ds) (hrest : (p.key, ahead rest) ∈ followPairs ps) {a : String}
    (ha : d.symbol ps = .nonterminal a) : (a, ahead (leavesOf ds ++ rest)) ∈ followPairs ps := by
  have hmem := Grammar.mem_of_numbered hp
  cases ds with
  | nil => exact Grammar.follow_last hps hmem (by rw [hbody, ← ha]; rfl) hrest
  | cons e es =>
    rw [leavesOf, List.append_assoc]
    exact Grammar.follow_next hps hmem (by rw [hbody, ← ha]; rfl) (ahead_of_first hds.1 _)

theorem top_cons (e : Entry) (stack : List Entry) : top (e :: stack) = e.state := rfl

/-- Applying the production of a complete item. -/
theorem next_reduce (hps : WellDefined ps) (hg : g.productions = ps) (hb : Built ps g.table)
    {n q : Nat} {p : Grammar.Production} {set : Grammar.ItemSet} {entries stack : List Entry}
    {rest : List String} (hp : numbered? ps n = some p) (hlen : entries.length = p.body.length)
    (hset : stateAt? ps (top (entries ++ stack)) = some set) (hi : ⟨n, p.body.length⟩ ∈ set)
    (hrest : (p.key, ahead rest) ∈ followPairs ps)
    (hl : Leads ps (top stack) (.nonterminal p.key) q) :
    next? g ⟨entries ++ stack, rest⟩ =
      some ⟨⟨q, .node n (entries.reverse.map Entry.derivation)⟩ :: stack, rest⟩ := by
  have haction : g.table.action (top (entries ++ stack)) (ahead rest) = some (.reduce n) :=
    (hb.action_eq_some_iff hps).mpr (.reduce hset hp hi hrest)
  have hgoto : g.table.goto (top stack) p.key = some q :=
    (hb.goto_eq_some_iff (Grammar.mem_nonterminals.mpr ⟨p, Grammar.mem_of_numbered hp, rfl⟩)).mpr hl
  simp only [next?, haction, Grammar.production?_eq_numbered?, hg, hp, Option.bind_eq_bind,
    Option.bind_some, ← hlen, List.drop_left, List.take_left, hgoto]
  rfl

mutual

/-- **A derivation is pushed** from a state with its symbol behind a dot. -/
theorem moves_push (hps : WellDefined ps) (hg : g.productions = ps) (hb : Built ps g.table) :
    ∀ (d : Derivation) (stack : List Entry) (rest : List String) {set : Grammar.ItemSet}
      {i : Grammar.Item}, d.IsValid ps → stateAt? ps (top stack) = some set → i ∈ set →
      i.next? ps = some (d.symbol ps) →
      (∀ a, d.symbol ps = .nonterminal a → (a, ahead rest) ∈ followPairs ps) →
      ∃ q, Leads ps (top stack) (d.symbol ps) q ∧
        Moves g d.size ⟨stack, d.leaves ++ rest⟩ ⟨⟨q, d⟩ :: stack, rest⟩
  | leaf t, stack, rest, set, i, _, hset, hi, hnext, _ => by
    obtain ⟨q, hl⟩ := Grammar.exists_leads hset hi hnext
    refine ⟨q, hl, Moves.single ?_⟩
    have haction : g.table.action (top stack) t = some (.shift q) :=
      (hb.action_eq_some_iff hps).mpr (.shift hl)
    rw [leaves, next?]
    simp only [List.cons_append, List.nil_append, ahead, List.head?_cons, Option.getD_some, haction]
  | node n children, stack, rest, set, i, hd, hset, hi, hnext, hfollow => by
    obtain ⟨⟨p, hp, hbody⟩, hchildren⟩ := hd
    have hsymbol := symbol_node hp children
    have hstart : ⟨n, 0⟩ ∈ set :=
      Grammar.closed_of_stateAt hset i hi p.key (hsymbol ▸ hnext) n p hp rfl
    have hrest := hfollow p.key hsymbol
    obtain ⟨entries, hentries, hmoves, set', hset', hi'⟩ :=
      moves_pushAll hps hg hb children [] stack rest hchildren hp hbody.symm hset hstart hrest
    obtain ⟨q, hl⟩ := Grammar.exists_leads hset hi hnext
    have hlen : entries.length = p.body.length := by
      rw [← hbody, ← hentries]
      simp
    have hreduce := next_reduce hps hg hb hp hlen hset' hi' hrest (hsymbol ▸ hl)
    rw [hentries] at hreduce
    exact ⟨q, hl, hmoves.trans (Moves.single hreduce)⟩

/-- **The rest of a body is pushed** from a state with an item that has seen what is before it. -/
theorem moves_pushAll (hps : WellDefined ps) (hg : g.productions = ps) (hb : Built ps g.table) :
    ∀ (ds : List Derivation) (before : List Grammar.Sym) (stack : List Entry)
      (rest : List String) {set : Grammar.ItemSet} {n : Nat} {p : Grammar.Production},
      AllValid ps ds → numbered? ps n = some p → p.body = before ++ ds.map (symbol ps) →
      stateAt? ps (top stack) = some set → ⟨n, before.length⟩ ∈ set →
      (p.key, ahead rest) ∈ followPairs ps →
      ∃ entries : List Entry, entries.reverse.map Entry.derivation = ds ∧
        Moves g (sizeOf ds) ⟨stack, leavesOf ds ++ rest⟩ ⟨entries ++ stack, rest⟩ ∧
        ∃ set', stateAt? ps (top (entries ++ stack)) = some set' ∧ ⟨n, p.body.length⟩ ∈ set'
  | [], before, stack, rest, set, n, p, _, _, hbody, hset, hi, _ => by
    obtain rfl : p.body = before := by simpa using hbody
    exact ⟨[], rfl, .refl _, set, hset, hi⟩
  | d :: ds, before, stack, rest, set, n, p, hds, hp, hbody, hset, hi, hrest => by
    have hnext : (Grammar.Item.mk n before.length).next? ps = some (d.symbol ps) := by
      rw [Grammar.Item.next?, Grammar.bodyOf_of_numbered hp, hbody]
      simp
    obtain ⟨q, hl, hmoves⟩ := moves_push hps hg hb d stack (leavesOf ds ++ rest) hds.1 hset hi
      hnext fun a ha => follow_of_child hps hp hbody hds.2 hrest ha
    have hset' := Grammar.stateAt_of_leads hset hl
    have hi' : ⟨n, (before ++ [d.symbol ps]).length⟩ ∈ Grammar.advance ps set (d.symbol ps) := by
      rw [List.length_append, List.length_singleton]
      exact Grammar.mem_advance_iff.mpr ⟨hi, hnext⟩
    obtain ⟨entries, hentries, hmoves', hend⟩ :=
      moves_pushAll hps hg hb ds (before ++ [d.symbol ps]) (⟨q, d⟩ :: stack) rest hds.2 hp
        (by simpa using hbody) hset' hi' hrest
    refine ⟨entries ++ [⟨q, d⟩], by simp [hentries], ?_, by simpa using hend⟩
    rw [leavesOf, List.append_assoc, List.append_assoc]
    exact hmoves.trans hmoves'

end

/-- A derivation of the start key is pushed onto the empty stack, and then accepted. -/
theorem exists_accepted (hps : WellDefined ps) (hg : g.productions = ps) (hb : Built ps g.table)
    {d : Derivation} (hd : d.Derives ps) : ∃ q, Moves g d.size ⟨[], d.leaves⟩ ⟨[⟨q, d⟩], []⟩ ∧
      g.table.action q Grammar.eof = some .accept := by
  have hnext : (Grammar.Item.mk 0 0).next? ps = some (d.symbol ps) := by
    rw [hd.start]
    rfl
  obtain ⟨q, hl, hmoves⟩ := moves_push hps hg hb d [] [] hd.valid
    Grammar.stateAt_zero Grammar.zero_mem_startSet hnext fun a ha => by
      obtain rfl := Grammar.Sym.nonterminal.inj (hd.start.symm.trans ha)
      exact Grammar.follow_start
  rw [List.append_nil] at hmoves
  refine ⟨q, hmoves, (hb.action_eq_some_iff hps).mpr ?_⟩
  exact .accept (Grammar.stateAt_of_leads Grammar.stateAt_zero hl)
    (Grammar.mem_advance_iff.mpr ⟨Grammar.zero_mem_startSet, hnext⟩) rfl

theorem next_eq_none_of_accept {q : Nat} {d : Derivation}
    (h : g.table.action q Grammar.eof = some .accept) : next? g ⟨[⟨q, d⟩], []⟩ = none := by
  have hstate : top [⟨q, d⟩] = q := rfl
  have hahead : ahead [] = Grammar.eof := rfl
  simp only [next?, hstate, hahead, h]

/-- **A sentence has one derivation** in a grammar that was built. -/
theorem derivation_unique (hps : WellDefined ps) (hb : ∃ t, Grammar.buildTable ps = .ok t)
    {d e : Derivation} (hd : d.Derives ps) (he : e.Derives ps) (hleaves : d.leaves = e.leaves) :
    d = e := by
  obtain ⟨t, ht⟩ := hb
  have hbuilt := Grammar.built_of_buildTable ht
  obtain ⟨q, hmoves, haccept⟩ := exists_accepted (g := ⟨ps, t⟩) hps rfl hbuilt hd
  obtain ⟨q', hmoves', haccept'⟩ := exists_accepted (g := ⟨ps, t⟩) hps rfl hbuilt he
  rw [← hleaves] at hmoves'
  have heq := (hmoves.unique hmoves' (next_eq_none_of_accept haccept)
    (next_eq_none_of_accept haccept')).2
  simp only [Bare.mk.injEq, List.cons.injEq, Entry.mk.injEq] at heq
  exact heq.1.1.2

end Derivation

end PixQuery
