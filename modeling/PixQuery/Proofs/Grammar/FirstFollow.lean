import Mathlib.Data.List.Chain
import Mathlib.Logic.Relation
import PixQuery.Proofs.Grammar.Passes
import PixQuery.Proofs.Grammar.Steps

/-!
# First and follow are exact

A row of symbols is rewritten by putting the body of a production in the place of its key. The first
pairs are those of a nonterminal and a terminal at the front of a row that it is rewritten into, and
the follow pairs those of a nonterminal and a terminal right behind it in such a row. That they hold
no more is an induction over the rounds in which they are computed; that they hold no less is an
induction over the steps of a rewriting: each step keeps what the first symbol may begin with, and
that every symbol of a row may begin with nothing but what follows the nonterminal before it.

Results:
* `mem_firstPairs_iff`: the first pairs.
* `mem_followPairs_iff`, `eof_mem_followPairs_iff`: the follow pairs.
* `first_follow_exact`: both, and the loops that compute them in place end.
-/

namespace PixQuery.Grammar

open Relation (ReflTransGen TransGen)

variable {ps : List Production}

/-! ## Rewriting -/

/-- One nonterminal of a row gives way to the body of a production of it. -/
inductive Rewrites (ps : List Production) : List Sym → List Sym → Prop
  | here (p : Production) (hp : p ∈ ps) (before rest : List Sym) :
    Rewrites ps (before ++ .nonterminal p.key :: rest) (before ++ p.body ++ rest)

namespace Rewrites

variable {row row' : List Sym}

theorem key {p : Production} (hp : p ∈ ps) : Rewrites ps [.nonterminal p.key] p.body := by
  simpa using here p hp [] []

theorem within (h : Rewrites ps row row') (before rest : List Sym) :
    Rewrites ps (before ++ row ++ rest) (before ++ row' ++ rest) := by
  obtain ⟨p, hp, u, v⟩ := h
  simpa using here p hp (before ++ u) (v ++ rest)

theorem closure_within (h : ReflTransGen (Rewrites ps) row row') (before rest : List Sym) :
    ReflTransGen (Rewrites ps) (before ++ row ++ rest) (before ++ row' ++ rest) := by
  induction h with
  | refl => exact .refl
  | tail _ hstep ih => exact ih.tail (hstep.within before rest)

end Rewrites

/-! ## First -/

/-- The terminal is at the front of a row that the nonterminal is rewritten into. -/
def Begins (ps : List Production) (pair : String × String) : Prop :=
  ∃ rest, TransGen (Rewrites ps) [.nonterminal pair.1] (.terminal pair.2 :: rest)

theorem exists_row_of_firstOf {first : List (String × String)} (h : ∀ pair ∈ first, Begins ps pair)
    {x : Sym} {t : String} (ht : t ∈ firstOf first x) :
    ∃ rest, ReflTransGen (Rewrites ps) [x] (.terminal t :: rest) := by
  cases x with
  | terminal u =>
    obtain rfl := List.mem_singleton.mp ht
    exact ⟨[], .refl⟩
  | nonterminal a =>
    obtain ⟨rest, hrest⟩ := h (a, t) (mem_image.mp ht)
    exact ⟨rest, hrest.to_reflTransGen⟩

theorem begins_of_mem_firstPairs : ∀ pair ∈ firstPairs ps, Begins ps pair := by
  refine saturate_invariant (fun first hfirst => ?_) _ nofun
  rintro ⟨a, t⟩ hmem
  obtain ⟨p, hp, rfl, ht⟩ := mem_firstStep.mp hmem
  obtain ⟨rest, hrest⟩ := exists_row_of_firstOf hfirst ht
  exact ⟨rest ++ p.others, .head' (.key hp) (Rewrites.closure_within hrest [] p.others)⟩

/-- The terminals that can begin what a row stands for. -/
def opening (ps : List Production) : List Sym → List String
  | [] => []
  | x :: _ => firstOf (firstPairs ps) x

/-- A step does not let a row begin with anything else. -/
theorem opening_of_rewrites {row row' : List Sym} (h : Rewrites ps row row') :
    opening ps row' ⊆ opening ps row := by
  obtain ⟨p, hp, before, rest⟩ := h
  cases before with
  | nil => exact fun t ht => mem_image.mpr (first_closed hp ht)
  | cons => exact List.Subset.refl _

theorem opening_of_closure {row row' : List Sym} (h : ReflTransGen (Rewrites ps) row row') :
    opening ps row' ⊆ opening ps row := by
  induction h with
  | refl => exact List.Subset.refl _
  | tail _ hstep ih => exact List.Subset.trans (opening_of_rewrites hstep) ih

/-- **The first pairs** are those of a nonterminal and a terminal at the front of what it is
rewritten into. -/
theorem mem_firstPairs_iff {a t : String} : (a, t) ∈ firstPairs ps ↔
    ∃ rest, TransGen (Rewrites ps) [.nonterminal a] (.terminal t :: rest) := by
  constructor
  · exact begins_of_mem_firstPairs (a, t)
  · rintro ⟨rest, h⟩
    exact mem_image.mp (opening_of_closure h.to_reflTransGen (List.mem_singleton.mpr rfl))

/-! ## Follow: nothing else -/

/-- The terminal stands right behind the nonterminal in a row that some nonterminal is rewritten
into. -/
def Meets (ps : List Production) (a t : String) : Prop :=
  ∃ b ∈ nonterminals ps, ∃ before rest,
    ReflTransGen (Rewrites ps) [.nonterminal b] (before ++ .nonterminal a :: .terminal t :: rest)

/-- The nonterminal is at the end of a row that the start key is rewritten into. -/
def Closes (ps : List Production) (a : String) : Prop :=
  ∃ before, ReflTransGen (Rewrites ps) [.nonterminal (startKey ps)] (before ++ [.nonterminal a])

variable {p : Production} {before rest : List Sym} {a t : String}

theorem Meets.last (h : Meets ps p.key t) (hp : p ∈ ps)
    (hbody : p.body = before ++ [.nonterminal a]) :
    Meets ps a t := by
  obtain ⟨b, hb, u, v, hrow⟩ := h
  have hstep := Rewrites.here p hp u (.terminal t :: v)
  rw [hbody] at hstep
  exact ⟨b, hb, u ++ before, v, hrow.tail (by simpa using hstep)⟩

theorem Closes.last (h : Closes ps p.key) (hp : p ∈ ps)
    (hbody : p.body = before ++ [.nonterminal a]) :
    Closes ps a := by
  obtain ⟨u, hrow⟩ := h
  have hstep := Rewrites.here p hp u []
  rw [hbody] at hstep
  exact ⟨u ++ before, hrow.tail (by simpa using hstep)⟩

theorem meets_next {x : Sym} (hp : p ∈ ps) (hbody : p.body = before ++ .nonterminal a :: x :: rest)
    (ht : t ∈ firstOf (firstPairs ps) x) : Meets ps a t := by
  obtain ⟨more, hmore⟩ := exists_row_of_firstOf begins_of_mem_firstPairs ht
  have hrow := Rewrites.closure_within hmore (before ++ [.nonterminal a]) rest
  refine ⟨p.key, mem_nonterminals.mpr ⟨p, hp, rfl⟩, before, more ++ rest, ?_⟩
  exact .head (Rewrites.key hp) (by simpa [hbody] using hrow)

theorem ne_eof_of_firstOf (heof : ∀ p ∈ ps, .terminal eof ∉ p.body) {first : List (String × String)}
    (hfirst : ∀ pair ∈ first, pair.2 ≠ eof) {x : Sym} (hp : p ∈ ps) (hx : x ∈ p.body)
    (ht : t ∈ firstOf first x) : t ≠ eof := by
  cases x with
  | terminal u =>
    obtain rfl := List.mem_singleton.mp ht
    exact fun h => heof p hp (h ▸ hx)
  | nonterminal b => exact hfirst (b, t) (mem_image.mp ht)

/-- The end of the sentence begins nothing. -/
theorem firstPairs_ne_eof (heof : ∀ p ∈ ps, .terminal eof ∉ p.body) :
    ∀ pair ∈ firstPairs ps, pair.2 ≠ eof := by
  refine saturate_invariant (fun first hfirst => ?_) _ nofun
  rintro ⟨b, u⟩ hmem
  obtain ⟨q, hq, _, hu⟩ := mem_firstStep.mp hmem
  exact ne_eof_of_firstOf heof hfirst hq List.mem_cons_self hu

/-- What may stand behind a nonterminal: a terminal that it meets, or the end of the sentence. -/
def StandsBehind (ps : List Production) (pair : String × String) : Prop :=
  (pair.2 ≠ eof ∧ Meets ps pair.1 pair.2) ∨ (pair.2 = eof ∧ Closes ps pair.1)

theorem standsBehind_of_mem_followPairs (heof : ∀ p ∈ ps, .terminal eof ∉ p.body) :
    ∀ pair ∈ followPairs ps, StandsBehind ps pair := by
  refine saturate_invariant (fun follow hfollow => ?_) _ fun pair hpair => ?_
  · rintro ⟨a, t⟩ hmem
    obtain ⟨p, hp, before, rest, hbody, ht⟩ := mem_followStep.mp hmem
    cases rest with
    | nil =>
      rcases hfollow (p.key, t) (mem_image.mp ht) with ⟨hne, hmeets⟩ | ⟨heq, hcloses⟩
      · exact .inl ⟨hne, hmeets.last hp hbody⟩
      · exact .inr ⟨heq, hcloses.last hp hbody⟩
    | cons x rest =>
      have hne : t ≠ eof :=
        ne_eof_of_firstOf heof (firstPairs_ne_eof heof) hp (by simp [hbody] : x ∈ p.body) ht
      exact .inl ⟨hne, meets_next hp hbody ht⟩
  · obtain rfl := List.mem_singleton.mp hpair
    exact .inr ⟨rfl, [], .refl⟩

/-! ## Follow: nothing less -/

/-- What the second symbol begins with follows the first one, if that is a nonterminal. -/
def Precedes (ps : List Production) (x y : Sym) : Prop :=
  ∀ a, x = .nonterminal a → firstOf (firstPairs ps) y ⊆ image (followPairs ps) a

theorem isChain_of_suffix (h : WellDefined ps) (hp : p ∈ ps) : ∀ (rest before : List Sym),
    p.body = before ++ rest → rest.IsChain (Precedes ps)
  | [], _, _ => .nil
  | [x], _, _ => .singleton x
  | x :: y :: rest, before, hbody => by
    refine List.isChain_cons_cons.mpr ⟨fun a hx t ht => ?_, ?_⟩
    · exact mem_image.mpr (follow_next h hp (hx ▸ hbody) ht)
    · exact isChain_of_suffix h hp (y :: rest) (before ++ [x]) (by simpa using hbody)

/-- A member of a chain may give way to a chain that fits in its place. -/
theorem isChain_replace {α : Type} {R : α → α → Prop} {u v body : List α} {x : α}
    (h : (u ++ x :: v).IsChain R) (hne : body ≠ []) (hbody : body.IsChain R)
    (hhead : ∀ z ∈ body.head?, ∀ y, R y x → R y z)
    (hlast : ∀ z ∈ body.getLast?, ∀ w, R x w → R z w) : (u ++ body ++ v).IsChain R := by
  obtain ⟨hu, hxv, hjoin⟩ := List.isChain_append.mp h
  obtain ⟨hx, hv⟩ := List.isChain_cons.mp hxv
  rw [List.append_assoc]
  refine List.isChain_append.mpr ⟨hu, List.isChain_append.mpr ⟨hbody, hv, ?_⟩, ?_⟩
  · exact fun z hz w hw => hlast z hz w (hx w hw)
  · intro y hy z hz
    rw [List.head?_append_of_ne_nil _ hne] at hz
    exact hhead z hz y (hjoin y hy x rfl)

theorem isChain_of_rewrites (h : WellDefined ps) {row row' : List Sym}
    (hstep : Rewrites ps row row')
    (hrow : row.IsChain (Precedes ps)) : row'.IsChain (Precedes ps) := by
  obtain ⟨p, hp, u, v⟩ := hstep
  refine isChain_replace hrow p.body_ne_nil (isChain_of_suffix h hp p.body [] rfl) ?_ ?_
  -- in front of the body: what begins its first symbol begins the key as well
  · intro z hz y hy a ha t ht
    obtain rfl := Option.some.inj hz
    exact hy a ha (mem_image.mpr (first_closed hp ht))
  -- behind the body: what follows the key follows its last symbol as well
  · intro z hz w hw a ha t ht
    obtain ⟨before, hbody⟩ := List.getLast?_eq_some_iff.mp hz
    have hkey := mem_image.mp (hw p.key rfl ht)
    exact mem_image.mpr (follow_last h hp (ha ▸ hbody) hkey)

theorem isChain_of_closure (h : WellDefined ps) {b : String} {row : List Sym}
    (hrow : ReflTransGen (Rewrites ps) [.nonterminal b] row) : row.IsChain (Precedes ps) := by
  induction hrow with
  | refl => exact .singleton _
  | tail _ hstep ih => exact isChain_of_rewrites h hstep ih

theorem mem_followPairs_of_meets (h : WellDefined ps) (hmeets : Meets ps a t) :
    (a, t) ∈ followPairs ps := by
  obtain ⟨b, _, before, rest, hrow⟩ := hmeets
  obtain ⟨_, hpair, _⟩ := List.isChain_append_cons_cons.mp (isChain_of_closure h hrow)
  exact mem_image.mp (hpair a rfl (List.mem_singleton.mpr rfl))

theorem last_of_closure (h : WellDefined ps) {row : List Sym}
    (hrow : ReflTransGen (Rewrites ps) [.nonterminal (startKey ps)] row) :
    ∀ a, row.getLast? = some (.nonterminal a) → (a, eof) ∈ followPairs ps := by
  induction hrow with
  | refl =>
    intro a ha
    obtain rfl := Sym.nonterminal.inj (Option.some.inj ha)
    exact follow_start
  | tail _ hstep ih =>
    obtain ⟨p, hp, u, v⟩ := hstep
    intro a ha
    -- a body in the midst of the row leaves the end of the row as it is
    cases v with
    | nil =>
      rw [List.append_nil, List.getLast?_append_of_ne_nil _ p.body_ne_nil] at ha
      obtain ⟨before, hbody⟩ := List.getLast?_eq_some_iff.mp ha
      exact follow_last h hp hbody (ih p.key (by simp))
    | cons x v => exact ih a (by simpa using ha)

/-- **The follow pairs** with a terminal are those where it stands right behind the nonterminal in a
row that some nonterminal is rewritten into. -/
theorem mem_followPairs_iff (h : WellDefined ps) (heof : ∀ p ∈ ps, .terminal eof ∉ p.body)
    (ht : t ≠ eof) : (a, t) ∈ followPairs ps ↔ Meets ps a t := by
  constructor
  · intro hmem
    rcases standsBehind_of_mem_followPairs heof (a, t) hmem with ⟨_, hmeets⟩ | ⟨heq, _⟩
    · exact hmeets
    · exact absurd heq ht
  · exact mem_followPairs_of_meets h

/-- **The end of the sentence follows** the nonterminals at the end of the rows that the start key
is rewritten into. -/
theorem eof_mem_followPairs_iff (h : WellDefined ps) (heof : ∀ p ∈ ps, .terminal eof ∉ p.body) :
    (a, eof) ∈ followPairs ps ↔ Closes ps a := by
  constructor
  · intro hmem
    rcases standsBehind_of_mem_followPairs heof (a, eof) hmem with ⟨hne, _⟩ | ⟨_, hcloses⟩
    · exact absurd rfl hne
    · exact hcloses
  · rintro ⟨before, hrow⟩
    exact last_of_closure h hrow a (by simp)

/-! ## The loops -/

theorem newFacts_firstPairs : newFacts (firstStep ps) (firstPairs ps) = [] :=
  newFacts_eq_nil_iff.mpr (saturate_closed stocked_firstStep _ []
    (fun _ h => absurd h List.not_mem_nil) (missing_pairs_le _))

theorem newFacts_followPairs (h : WellDefined ps) :
    newFacts (followStep ps (firstPairs ps)) (followPairs ps) = [] :=
  newFacts_eq_nil_iff.mpr
    (saturate_closed (stocked_followStep h) _ _ start_endsInTerminal (missing_pairs_le _))

/-- The rules for first terminals, one for each production. -/
def firstRules (ps : List Production) : List (List (String × String) → List (String × String)) :=
  ps.map fun p first => (firstOf first p.first).map fun t => (p.key, t)

/-- The rules for the terminals behind the nonterminals of a body, one for each of these. -/
def followRulesInBody (first : List (String × String)) (key : String) :
    List Sym → List (List (String × String) → List (String × String))
  | [] => []
  | .terminal _ :: rest => followRulesInBody first key rest
  | .nonterminal a :: rest =>
    (fun follow => (behind first follow key rest).map fun t => (a, t)) ::
      followRulesInBody first key rest

/-- The rules for the terminals behind nonterminals. -/
def followRules (ps : List Production) (first : List (String × String)) :
    List (List (String × String) → List (String × String)) :=
  ps.flatMap fun p => followRulesInBody first p.key p.body

theorem gathers_firstRules : Gathers (firstStep ps) (firstRules ps) := by
  intro first pair
  simp only [firstStep, firstRules, List.mem_flatMap, List.mem_map, exists_exists_and_eq_and]

theorem mem_followInBody_iff_exists_rule {first follow : List (String × String)} {key : String}
    {pair : String × String} : ∀ {body : List Sym}, pair ∈ followInBody first follow key body ↔
      ∃ rule ∈ followRulesInBody first key body, pair ∈ rule follow
  | [] => by simp [followInBody, followRulesInBody]
  | .terminal _ :: body => by
    rw [followInBody, followRulesInBody, mem_followInBody_iff_exists_rule]
  | .nonterminal a :: body => by
    rw [followInBody_nonterminal, followRulesInBody, List.mem_append, List.exists_mem_cons_iff,
      mem_followInBody_iff_exists_rule]

theorem gathers_followRules {first : List (String × String)}
    (hfirst : ∀ pair, pair ∈ first ↔ pair ∈ firstPairs ps) :
    Gathers (followStep ps (firstPairs ps)) (followRules ps first) := by
  intro follow pair
  have hrules : pair ∈ followStep ps first follow ↔
      ∃ rule ∈ followRules ps first, pair ∈ rule follow := by
    simp only [followStep, followRules, List.mem_flatMap, mem_followInBody_iff_exists_rule]
    constructor
    · rintro ⟨p, hp, rule, hrule, hpair⟩
      exact ⟨rule, ⟨p, hp, hrule⟩, hpair⟩
    · rintro ⟨rule, ⟨p, hp, hrule⟩, hpair⟩
      exact ⟨p, hp, rule, hrule, hpair⟩
  rw [← hrules]
  constructor
  · exact fun h => followStep_subset (fun q hq => (hfirst q).mpr hq) (List.Subset.refl _) h
  · exact fun h => followStep_subset (fun q hq => (hfirst q).mp hq) (List.Subset.refl _) h

/-- The loop for first terminals ends with the first pairs. -/
theorem exists_repeats_firstRules : ∃ n ≤ pairBound ps, ∃ first,
    Repeats (firstRules ps) [] n first ∧ ∀ pair, pair ∈ first ↔ pair ∈ firstPairs ps := by
  obtain ⟨n, hn, first, hloop⟩ := exists_repeats (stocked_firstStep.of_gathers gathers_firstRules)
    (pairBound ps) (fun _ h => absurd h List.not_mem_nil) (missing_pairs_le [])
  exact ⟨n, hn, first, hloop, mem_iff_of_repeats gathers_firstRules firstStep_subset
    (newFacts_eq_nil_iff.mp newFacts_firstPairs) hloop⟩

/-- The loop for the terminals behind nonterminals ends with the follow pairs. -/
theorem exists_repeats_followRules (h : WellDefined ps) {first : List (String × String)}
    (hfirst : ∀ pair, pair ∈ first ↔ pair ∈ firstPairs ps) : ∃ n ≤ pairBound ps, ∃ follow,
      Repeats (followRules ps first) [(startKey ps, eof)] n follow ∧
        ∀ pair, pair ∈ follow ↔ pair ∈ followPairs ps := by
  have hgathers := gathers_followRules hfirst
  obtain ⟨n, hn, follow, hloop⟩ := exists_repeats ((stocked_followStep h).of_gathers hgathers)
    (pairBound ps) start_endsInTerminal (missing_pairs_le _)
  exact ⟨n, hn, follow, hloop, mem_iff_of_repeats hgathers (followStep_subset (List.Subset.refl _))
    (newFacts_eq_nil_iff.mp (newFacts_followPairs h)) hloop⟩

/-- **First and follow are exact** for all productions that a definition is read as. The rounds in
which they are computed end because there is nothing new, and so do loops that use the rules in
place. A first pair is a nonterminal and a terminal at the front of what it is rewritten into; a
follow pair is a nonterminal and a terminal right behind it in what some nonterminal is rewritten
into, or the end of the sentence behind what the start key is rewritten into. -/
theorem first_follow_exact {text : String} {ps : List Production}
    (h : readDefinition text = .ok ps) :
    (newFacts (firstStep ps) (firstPairs ps) = [] ∧
      newFacts (followStep ps (firstPairs ps)) (followPairs ps) = []) ∧
    (∃ first, (∃ n ≤ pairBound ps, Repeats (firstRules ps) [] n first) ∧
      (∀ pair, pair ∈ first ↔ pair ∈ firstPairs ps) ∧
      ∃ follow, (∃ n ≤ pairBound ps, Repeats (followRules ps first) [(startKey ps, eof)] n follow) ∧
        ∀ pair, pair ∈ follow ↔ pair ∈ followPairs ps) ∧
    (∀ a t, (a, t) ∈ firstPairs ps ↔
      ∃ rest, TransGen (Rewrites ps) [.nonterminal a] (.terminal t :: rest)) ∧
    (∀ a t, t ≠ eof → ((a, t) ∈ followPairs ps ↔ ∃ b ∈ nonterminals ps, ∃ before rest,
      ReflTransGen (Rewrites ps) [.nonterminal b]
        (before ++ .nonterminal a :: .terminal t :: rest))) ∧
    ∀ a, (a, eof) ∈ followPairs ps ↔ ∃ before,
      ReflTransGen (Rewrites ps) [.nonterminal (startKey ps)] (before ++ [.nonterminal a]) := by
  have hps := wellDefined_of_readDefinition h
  have heof := eof_not_mem_of_readDefinition h
  refine ⟨⟨newFacts_firstPairs, newFacts_followPairs hps⟩, ?_, fun a t => mem_firstPairs_iff,
    fun a t ht => mem_followPairs_iff hps heof ht, fun a => eof_mem_followPairs_iff hps heof⟩
  obtain ⟨n, hn, first, hloop, hfirst⟩ := @exists_repeats_firstRules ps
  obtain ⟨m, hm, follow, hloop', hfollow⟩ := exists_repeats_followRules hps hfirst
  exact ⟨first, ⟨n, hn, hloop⟩, hfirst, follow, ⟨m, hm, hloop'⟩, hfollow⟩

/-- In sums a plus stands behind a sum, but begins none, and the sentence ends behind a sum. -/
theorem first_follow_exact_sums : readDefinition sumText = .ok sums.productions ∧
    (¬∃ rest, TransGen (Rewrites sums.productions) [.nonterminal "S"] (.terminal "+" :: rest)) ∧
    (∃ b ∈ nonterminals sums.productions, ∃ before rest,
      ReflTransGen (Rewrites sums.productions) [.nonterminal b]
        (before ++ .nonterminal "S" :: .terminal "+" :: rest)) ∧
    ∃ before, ReflTransGen (Rewrites sums.productions)
      [.nonterminal (startKey sums.productions)] (before ++ [.nonterminal "S"]) := by
  have hread : readDefinition sumText = .ok sums.productions := by decide
  obtain ⟨_, _, hfirst, hfollow, heof⟩ := first_follow_exact hread
  refine ⟨hread, fun h => ?_, (hfollow "S" "+" (by decide)).mp (by decide),
    (heof "S").mp (by decide)⟩
  exact absurd ((hfirst "S" "+").mpr h) (by decide)

end PixQuery.Grammar
