import PixQuery.Proofs.Grammar.Completeness

/-!
# What stands on the stack begins a sentence

An item in the state on top waits for the symbol behind its dot. It is there because its production
was begun further down, where another item waits for its key, and so on down to the start key. When
every nonterminal stands for some terminals, each production on that way can be finished, and what
is read so far is the beginning of a sentence.

Results:
* `Inherited.waiting`: what passes from the key of a production on to the nonterminals in its body
  holds of all that a stack waits for.
* `exists_follow`: some terminal can stand behind the key of every production that was begun.
* `beginsSentence_of_spells`: the terminals on the stack begin a sentence.
-/

namespace PixQuery

open Grammar (Production Sym WellDefined stateAt? startKey numbered? bodyOf followPairs firstPairs
  firstOf nonterminals Leads)

namespace Grammar

/-- Every nonterminal stands for some terminals. -/
def Productive (ps : List Production) : Prop :=
  ∀ a ∈ nonterminals ps, ∃ d : Derivation, d.IsValid ps ∧ d.symbol ps = .nonterminal a

/-- The terminals are what the start key can stand for. -/
def IsSentence (ps : List Production) (ts : List String) : Prop :=
  ∃ d : Derivation, d.Derives ps ∧ d.leaves = ts

/-- Some more terminals make a sentence of these. -/
def BeginsSentence (ps : List Production) (ts : List String) : Prop :=
  ∃ us, IsSentence ps (ts ++ us)

variable {ps : List Production}

theorem IsSentence.beginsSentence {ts : List String} (h : IsSentence ps ts) :
    BeginsSentence ps ts :=
  ⟨[], by rwa [List.append_nil]⟩

theorem BeginsSentence.of_append {ts us : List String} (h : BeginsSentence ps (ts ++ us)) :
    BeginsSentence ps ts := by
  obtain ⟨vs, h⟩ := h
  exact ⟨us ++ vs, by rwa [← List.append_assoc]⟩

/-- Derivations of symbols, one by one, make derivations of all. -/
theorem exists_allValid : ∀ {xs : List Sym},
    (∀ x ∈ xs, ∃ d : Derivation, d.IsValid ps ∧ d.symbol ps = x) →
      ∃ ds, Derivation.AllValid ps ds ∧ ds.map (Derivation.symbol ps) = xs
  | [], _ => ⟨[], trivial, rfl⟩
  | x :: xs, h => by
    obtain ⟨d, hd, hsymbol⟩ := h x List.mem_cons_self
    obtain ⟨ds, hds, hsymbols⟩ := exists_allValid fun y hy => h y (List.mem_cons_of_mem x hy)
    exact ⟨d :: ds, ⟨hd, hds⟩, by rw [List.map_cons, hsymbol, hsymbols]⟩

namespace Productive

/-- A symbol in a body stands for some terminals. -/
theorem exists_derivation (hp : Productive ps) (hps : WellDefined ps) {p : Production}
    (hmem : p ∈ ps) : ∀ {x : Sym}, x ∈ p.body → ∃ d : Derivation, d.IsValid ps ∧ d.symbol ps = x
  | .terminal t, _ => ⟨.leaf t, trivial, rfl⟩
  | .nonterminal a, hx => hp a (hps.keys p hmem a hx)

/-- Symbols in a body stand for some terminals. -/
theorem exists_derivations (hp : Productive ps) (hps : WellDefined ps) {p : Production}
    (hmem : p ∈ ps) {xs : List Sym} (hxs : xs ⊆ p.body) :
    ∃ ds, Derivation.AllValid ps ds ∧ ds.map (Derivation.symbol ps) = xs :=
  exists_allValid fun _ hx => hp.exists_derivation hps hmem (hxs hx)

/-- There is a derivation of the start key. -/
theorem exists_start (hp : Productive ps) (hps : WellDefined ps) :
    ∃ d : Derivation, d.Derives ps := by
  obtain ⟨p, qs, rfl⟩ := List.exists_cons_of_ne_nil hps.nonempty
  obtain ⟨d, hd, hsymbol⟩ := hp p.key (mem_nonterminals.mpr ⟨p, List.mem_cons_self, rfl⟩)
  exact ⟨d, hd, hsymbol⟩

end Productive

/-- Each key has a production of terminals and of keys behind it in the list. -/
def isGrounded (ps : List Production) : List String → Bool
  | [] => true
  | a :: keys =>
    ps.any (fun p => p.key == a && p.body.all fun
      | .terminal _ => true
      | .nonterminal b => keys.contains b) && isGrounded ps keys

/-- The keys of a grounded list stand for some terminals. -/
theorem exists_of_isGrounded : ∀ {keys : List String}, isGrounded ps keys = true → ∀ a ∈ keys,
    ∃ d : Derivation, d.IsValid ps ∧ d.symbol ps = .nonterminal a
  | [], _, _, ha => absurd ha List.not_mem_nil
  | b :: keys, h, a, ha => by
    simp only [isGrounded, Bool.and_eq_true, List.any_eq_true, List.all_eq_true,
      beq_iff_eq] at h
    obtain ⟨⟨p, hp, rfl, hbody⟩, hkeys⟩ := h
    rcases List.mem_cons.mp ha with rfl | ha
    · obtain ⟨ds, hds, hsymbols⟩ := @exists_allValid ps p.body fun x hx => by
        cases x with
        | terminal t => exact ⟨.leaf t, trivial, rfl⟩
        | nonterminal b =>
          exact exists_of_isGrounded hkeys b (List.contains_iff_mem.mp (hbody _ hx))
      obtain ⟨n, hn⟩ := exists_numbered_of_mem hp
      exact ⟨.node n ds, ⟨⟨p, hn, hsymbols⟩, hds⟩, Derivation.symbol_node hn ds⟩
    · exact exists_of_isGrounded hkeys a ha

theorem productive_of_isGrounded {keys : List String} (h : isGrounded ps keys = true)
    (hsub : nonterminals ps ⊆ keys) : Productive ps :=
  fun a ha => exists_of_isGrounded h a (hsub ha)

theorem productive_sums : Productive sums.productions :=
  @productive_of_isGrounded _ ["S"] (by decide) (by decide)

theorem body_eq_of_getElem? {p : Production} {d : Nat} {x : Sym} (h : p.body[d]? = some x) :
    p.body = p.body.take d ++ x :: p.body.drop (d + 1) := by
  obtain ⟨hd, rfl⟩ := List.getElem?_eq_some_iff.mp h
  rw [← List.drop_eq_getElem_cons hd, List.take_append_drop]

end Grammar

namespace Parser

variable {ps : List Production} {stack : List Frame} {set : Grammar.ItemSet}

/-! ## What a stack waits for -/

/-- It holds of the start key over the empty stack, and passes from the key of a production that
was begun on to the nonterminal behind the dot. -/
structure Inherited (ps : List Production) (P : List Frame → String → Prop) : Prop where
  start : P [] (startKey ps)
  step : ∀ {stack : List Frame} {set : Grammar.ItemSet} {n d : Nat} {p : Production} {a : String},
    Spells ps stack → stateAt? ps (top stack) = some set → ⟨n, d⟩ ∈ set →
      numbered? ps n = some p → p.body[d]? = some (.nonterminal a) → P (stack.drop d) p.key →
        P stack a

variable {P : List Frame → String → Prop}

theorem next_eq_getElem? {n d : Nat} {p : Production} (hp : numbered? ps n = some p) :
    (Grammar.Item.mk n d).next? ps = p.body[d]? := by
  rw [Grammar.Item.next?, Grammar.bodyOf_of_numbered hp]

/-- The only item of the added production that waits for something is over the empty stack. -/
theorem Inherited.waiting_start (h : Inherited ps P) {d : Nat} {a : String}
    (hs : Spells ps stack) (hset : stateAt? ps (top stack) = some set) (hi : ⟨0, d⟩ ∈ set)
    (hnext : (Grammar.Item.mk 0 d).next? ps = some (.nonterminal a)) : P stack a := by
  have hd : d < 1 := Grammar.dot_lt_of_next hnext
  obtain rfl : d = 0 := Nat.lt_one_iff.mp hd
  obtain rfl := eq_nil_of_zero_mem hs hset hi
  obtain rfl : startKey ps = a := by simpa [Grammar.Item.next?, bodyOf] using hnext
  exact h.start

/-- **What is inherited holds of all that a stack waits for.** -/
theorem Inherited.waiting (h : Inherited ps P) {i : Grammar.Item} {a : String}
    (hs : Spells ps stack) (hset : stateAt? ps (top stack) = some set) (hi : i ∈ set)
    (hnext : i.next? ps = some (.nonterminal a)) : P stack a := by
  induction hlen : stack.length using Nat.strong_induction_on generalizing stack set i a with
  | _ k ih =>
    subst hlen
    -- a production that was begun has its key waited for on a smaller stack
    have hbegun : ∀ i ∈ set, i.dot ≠ 0 ∨ i.production = 0 →
        ∀ a, i.next? ps = some (.nonterminal a) → P stack a := by
      rintro ⟨n, d⟩ hi hor a hnext
      by_cases hn : n = 0
      · subst hn
        exact h.waiting_start hs hset hi hnext
      · have hd : d ≠ 0 := hor.resolve_right hn
        obtain ⟨p, hp⟩ := Grammar.exists_numbered hn (Grammar.production_le_of_next hnext)
        obtain ⟨_, hle, hdrop, set', hset', hi'⟩ := unwind d hs hset hi
        obtain ⟨j, hj, hwaits⟩ := Grammar.exists_waiting hset' hp hi'
        have hlt : (stack.drop d).length < stack.length := by
          rw [List.length_drop]
          omega
        exact h.step hs hset hi hp (next_eq_getElem? hp ▸ hnext)
          (ih _ hlt hdrop hset' hj hwaits rfl)
    by_cases hor : i.dot ≠ 0 ∨ i.production = 0
    · exact hbegun i hi hor a hnext
    · obtain ⟨n, d⟩ := i
      obtain ⟨rfl, hn⟩ : d = 0 ∧ n ≠ 0 := by simpa using hor
      obtain ⟨p, hp⟩ := Grammar.exists_numbered hn (Grammar.production_le_of_next hnext)
      have hfirst : ∀ n p a, numbered? ps n = some p → ⟨n, 0⟩ ∈ set → P stack p.key →
          p.first = .nonterminal a → P stack a := fun n p a hp hi hkey hfirst =>
        h.step hs hset hi hp (by rw [← hfirst]; rfl) hkey
      have hkey := (Grammar.undotted_induction hset hbegun hfirst hp hi).1
      exact h.step hs hset hi hp (next_eq_getElem? hp ▸ hnext) hkey

/-- What is inherited holds of the key of every production that was begun. -/
theorem Inherited.key (h : Inherited ps P) {n d : Nat} {p : Production} (hs : Spells ps stack)
    (hset : stateAt? ps (top stack) = some set) (hp : numbered? ps n = some p)
    (hi : ⟨n, d⟩ ∈ set) : P (stack.drop d) p.key := by
  obtain ⟨_, _, hdrop, set', hset', hi'⟩ := unwind d hs hset hi
  obtain ⟨j, hj, hwaits⟩ := Grammar.exists_waiting hset' hp hi'
  exact h.waiting hdrop hset' hj hwaits

/-! ## Follow sets -/

theorem inherited_follow (hps : WellDefined ps) (hprod : Grammar.Productive ps) :
    Inherited ps fun _ a => ∃ t, (a, t) ∈ followPairs ps where
  start := ⟨_, Grammar.follow_start⟩
  step := by
    rintro stack set n d p a _ _ _ hp hget ⟨t, ht⟩
    have hmem := Grammar.mem_of_numbered hp
    have hbody := Grammar.body_eq_of_getElem? hget
    cases hrest : p.body.drop (d + 1) with
    | nil => exact ⟨t, Grammar.follow_last hps hmem (hrest ▸ hbody) ht⟩
    | cons x rest =>
      have hx : x ∈ p.body := List.mem_of_mem_drop (hrest ▸ List.mem_cons_self)
      obtain ⟨e, he, rfl⟩ := hprod.exists_derivation hps hmem hx
      obtain ⟨u, _, _, hu⟩ := Derivation.exists_first he
      exact ⟨u, Grammar.follow_next hps hmem (hrest ▸ hbody) hu⟩

/-- **Some terminal can stand behind** the key of a production that was begun. -/
theorem exists_follow (hps : WellDefined ps) (hprod : Grammar.Productive ps) {n d : Nat}
    {p : Production} (hs : Spells ps stack) (hset : stateAt? ps (top stack) = some set)
    (hp : numbered? ps n = some p) (hi : ⟨n, d⟩ ∈ set) : ∃ t, (p.key, t) ∈ followPairs ps :=
  (inherited_follow hps hprod).key hs hset hp hi

/-! ## Beginnings of sentences -/

/-- The terminals of the trees on a stack, from left to right. -/
def terminalsOn (stack : List Frame) : List String :=
  (Tree.tokensOf (treesOf stack)).map Token.terminal

theorem terminalsOn_take_drop (d : Nat) (stack : List Frame) :
    terminalsOn stack = terminalsOn (stack.drop d) ++ terminalsOn (stack.take d) := by
  rw [terminalsOn, treesOf_take_drop d, Tree.tokensOf_append, List.map_append]
  rfl

/-- The trees on a stack are derivations of their tokens. -/
def AllDerived (ps : List Production) (stack : List Frame) : Prop :=
  ∀ t ∈ treesOf stack, t.IsDerivation ps

theorem AllDerived.take_drop (h : AllDerived ps stack) (d : Nat) :
    AllDerived ps (stack.take d) ∧ AllDerived ps (stack.drop d) := by
  rw [AllDerived, treesOf_take_drop d] at h
  exact ⟨fun t ht => h t (List.mem_append_right _ ht), fun t ht => h t (List.mem_append_left _ ht)⟩

/-- Whatever the key stands for can be put behind the stack to begin a sentence. -/
def Fits (ps : List Production) (stack : List Frame) (a : String) : Prop :=
  AllDerived ps stack → ∃ us, ∀ d : Derivation, d.IsValid ps → d.symbol ps = .nonterminal a →
    Grammar.IsSentence ps (terminalsOn stack ++ d.leaves ++ us)

/-- A production that was begun is finished by derivations of the rest of its body. -/
theorem exists_finished {n d : Nat} {p : Production} (hs : Spells ps stack)
    (hd : AllDerived ps stack) (hset : stateAt? ps (top stack) = some set)
    (hp : numbered? ps n = some p) (hi : ⟨n, d⟩ ∈ set) {es : List Derivation}
    (hes : Derivation.AllValid ps es) (hbody : es.map (Derivation.symbol ps) = p.body.drop d) :
    ∃ e : Derivation, e.IsValid ps ∧ e.symbol ps = .nonterminal p.key ∧
      e.leaves = terminalsOn (stack.take d) ++ Derivation.leavesOf es := by
  have htrees := Tree.allDerivations_iff.mpr (hd.take_drop d).1
  have hbefore : (Tree.derivations (treesOf (stack.take d))).map (Derivation.symbol ps) =
      p.body.take d := by
    have hsymbols := (unwind d hs hset hi).1
    rw [Grammar.bodyOf_of_numbered hp] at hsymbols
    rw [Tree.symbols_derivations htrees, treesOf, List.map_map]
    exact hsymbols
  refine ⟨.node n (Tree.derivations (treesOf (stack.take d)) ++ es), ⟨⟨p, hp, ?_⟩, ?_⟩,
    Derivation.symbol_node hp _, ?_⟩
  · rw [List.map_append, hbefore, hbody, List.take_append_drop]
  · exact Derivation.allValid_append (Tree.allValid_derivations htrees) hes
  · rw [Derivation.leaves, Derivation.leavesOf_append, Tree.leavesOf_derivations]
    rfl

theorem inherited_fits (hps : WellDefined ps) (hprod : Grammar.Productive ps) :
    Inherited ps (Fits ps) where
  start := fun _ => ⟨[], fun d hd hsymbol => ⟨d, ⟨hd, hsymbol⟩, (List.append_nil _).symm⟩⟩
  step := by
    intro stack set n d p a hs hset hi hp hget hkey hderived
    obtain ⟨us, hus⟩ := hkey (hderived.take_drop d).2
    have hbody := Grammar.body_eq_of_getElem? hget
    obtain ⟨es, hes, hsymbols⟩ := hprod.exists_derivations hps (Grammar.mem_of_numbered hp)
      (List.drop_subset (d + 1) p.body)
    refine ⟨Derivation.leavesOf es ++ us, fun x hx hsymbol => ?_⟩
    have hrest : (x :: es).map (Derivation.symbol ps) = p.body.drop d := by
      obtain ⟨hlt, hat⟩ := List.getElem?_eq_some_iff.mp hget
      rw [List.map_cons, hsymbol, hsymbols, List.drop_eq_getElem_cons hlt, hat]
    have hvalid : Derivation.AllValid ps (x :: es) := ⟨hx, hes⟩
    obtain ⟨e, he, hsymbol', hleaves⟩ := exists_finished hs hderived hset hp hi hvalid hrest
    have hsentence := hus e he hsymbol'
    rw [hleaves, Derivation.leavesOf] at hsentence
    rw [terminalsOn_take_drop d]
    simpa only [List.append_assoc] using hsentence

/-- The state on top of a stack that spells a path has an item. -/
theorem exists_item (hs : Spells ps stack) :
    ∃ set, stateAt? ps (top stack) = some set ∧ ∃ i, i ∈ set := by
  cases hs with
  | nil => exact ⟨_, Grammar.stateAt_zero, _, Grammar.zero_mem_startSet⟩
  | cons hl _ =>
    obtain ⟨set, hset, i, hi, hnext⟩ := Grammar.exists_next_of_leads hl
    exact ⟨_, Grammar.stateAt_of_leads hset hl, _, Grammar.mem_advance_of_next hi hnext⟩

/-- **The terminals on a stack begin a sentence.** -/
theorem beginsSentence_of_spells (hps : WellDefined ps) (hprod : Grammar.Productive ps)
    (hs : Spells ps stack) (hderived : AllDerived ps stack) :
    Grammar.BeginsSentence ps (terminalsOn stack) := by
  obtain ⟨set, hset, ⟨n, d⟩, hi⟩ := exists_item hs
  have hitems := Grammar.mem_items.mp (Grammar.mem_items_of_stateAt hset hi)
  by_cases hn : n = 0
  · subst hn
    have hd : d ≤ 1 := hitems.2
    obtain rfl | rfl : d = 0 ∨ d = 1 := by omega
    · obtain rfl := eq_nil_of_zero_mem hs hset hi
      obtain ⟨e, he⟩ := hprod.exists_start hps
      exact ⟨e.leaves, e, he, rfl⟩
    · obtain ⟨f, rfl, hsymbol⟩ := exists_root hs hset hi
      have hf := hderived f.tree (by simp [treesOf])
      refine ⟨[], f.tree.derivation, ⟨Tree.isValid_derivation hf, ?_⟩, ?_⟩
      · rw [Tree.symbol_derivation hf, hsymbol]
      · rw [Tree.leaves_derivation, List.append_nil]
        simp [terminalsOn, treesOf, Tree.tokensOf]
  · obtain ⟨p, hp⟩ := Grammar.exists_numbered hn hitems.1
    obtain ⟨us, hus⟩ := (inherited_fits hps hprod).key hs hset hp hi (hderived.take_drop d).2
    obtain ⟨es, hes, hsymbols⟩ := hprod.exists_derivations hps (Grammar.mem_of_numbered hp)
      (List.drop_subset d p.body)
    obtain ⟨e, he, hsymbol, hleaves⟩ := exists_finished hs hderived hset hp hi hes hsymbols
    refine ⟨Derivation.leavesOf es ++ us, ?_⟩
    have hsentence := hus e he hsymbol
    rw [hleaves] at hsentence
    rw [terminalsOn_take_drop d]
    simpa only [List.append_assoc] using hsentence

end Parser

end PixQuery
