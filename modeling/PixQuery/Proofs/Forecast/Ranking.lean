import Mathlib.Data.List.Dedup
import Mathlib.Data.List.Perm.Basic
import Mathlib.Data.Prod.Lex
import Mathlib.Data.String.Basic
import Mathlib.Order.WithBot
import PixQuery.Forecast.Ranking

/-!
# A forecast is the top of the candidates

Suggestions are compared by their rank, their name, their kind and their number. The four together
are the key of a suggestion, and the comparison is the order of the keys. Where no two different
candidates are of the same entity the key tells all candidates apart, so to rank them is to list
them in the one strictly ascending order that they have. What a lookup answers then counts as a set
only.

Results:
* `Suggestion.order_isLE_iff`: suggestions are compared by their keys.
* `Suggestion.pairwise_withoutNeighbours`: where keys tell suggestions apart, a sorted list from
  which repetitions are dropped ascends strictly.
* `Suggestion.isTop_best`: the best candidates are the first ones in the order, each once.
* `Forecast.of?_eq_and_isTop`: forecasts do not depend on the order in which a lookup answers, and
  list the top of the candidates.
-/

namespace PixQuery

theorem Kind.rank_injective : Function.Injective Kind.rank := by
  intro k l h
  cases k <;> cases l <;> first | rfl | cases h

namespace Suggestion

/-! ## The key of a suggestion -/

/-- The kind and number of an entity. Words, which have none, stand before all entities. -/
def entityKey : Option (Kind × UInt64) → WithBot (ℕ ×ₗ ℕ)
  | none => ⊥
  | some (kind, id) => ((toLex (kind.rank, id.toNat) : ℕ ×ₗ ℕ) : WithBot (ℕ ×ₗ ℕ))

/-- Rank, name, kind and number of a suggestion. -/
def key (typed : List Char) (s : Suggestion) : ℕ ×ₗ String ×ₗ WithBot (ℕ ×ₗ ℕ) :=
  toLex (s.rank typed, toLex (s.name, entityKey s.entity))

theorem entityKey_injective : Function.Injective entityKey := by
  rintro (_ | ⟨k, i⟩) (_ | ⟨l, j⟩) h
  · rfl
  · cases h
  · cases h
  · obtain ⟨hrank, hid⟩ := Prod.mk.inj (toLex.injective (WithBot.coe_injective h))
    rw [Kind.rank_injective hrank, UInt64.toNat_inj.mp hid]

theorem compareEntities_isLE_iff : ∀ a b : Option (Kind × UInt64),
    (compareEntities a b).isLE ↔ entityKey a ≤ entityKey b
  | none, none => by simp [compareEntities, entityKey]
  | none, some _ => by simp [compareEntities, entityKey]
  | some _, none => by simp [compareEntities, entityKey]
  | some (k, i), some (l, j) => by
    simp only [compareEntities, entityKey, Ordering.isLE_then_iff_or, Nat.compare_eq_lt,
      Nat.isLE_compare, Nat.compare_eq_eq, WithBot.coe_le_coe, Prod.Lex.toLex_le_toLex]

/-- **Suggestions are compared by their keys.** -/
theorem order_isLE_iff (typed : List Char) (s t : Suggestion) :
    (order typed s t).isLE ↔ key typed s ≤ key typed t := by
  simp only [order, key, Ordering.isLE_then_iff_or, Nat.compare_eq_lt, Nat.compare_eq_eq,
    compareEntities_isLE_iff, Prod.Lex.toLex_le_toLex, compareOfLessAndEq_eq_lt,
    compareOfLessAndEq_eq_eq (fun s : String => le_refl s) not_le]

theorem eq_of_key_eq {typed : List Char} {s t : Suggestion} (h : key typed s = key typed t) :
    s.name = t.name ∧ s.entity = t.entity := by
  obtain ⟨_, hrest⟩ := Prod.mk.inj (toLex.injective h)
  obtain ⟨hname, hentity⟩ := Prod.mk.inj (toLex.injective hrest)
  exact ⟨hname, entityKey_injective hentity⟩

/-! ## Candidates that keys tell apart -/

/-- No two different candidates are of the same entity. -/
def Separated (candidates : List Suggestion) : Prop :=
  ∀ s ∈ candidates, ∀ t ∈ candidates, s.entity = t.entity → s.entity.isSome → s = t

instance (candidates : List Suggestion) : Decidable (Separated candidates) :=
  inferInstanceAs (Decidable (∀ s ∈ candidates, ∀ t ∈ candidates,
    s.entity = t.entity → s.entity.isSome → s = t))

/-- The keys tell the candidates apart. -/
def Keyed (typed : List Char) (candidates : List Suggestion) : Prop :=
  ∀ s ∈ candidates, ∀ t ∈ candidates, key typed s = key typed t → s = t

/-- The words among the candidates are told apart by their names, and entities by kind and
number. -/
theorem Separated.keyed {candidates : List Suggestion} (h : Separated candidates)
    (hwords : ∀ s ∈ candidates, s.entity = none → s = word s.name) (typed : List Char) :
    Keyed typed candidates := by
  intro s hs t ht heq
  obtain ⟨hname, hentity⟩ := eq_of_key_eq heq
  cases hnone : s.entity with
  | none => rw [hwords s hs hnone, hwords t ht (hentity ▸ hnone), hname]
  | some e => exact h s hs t ht hentity (by rw [hnone]; rfl)

/-! ## Ranking -/

theorem mem_withoutNeighbours {s : Suggestion} (candidates : List Suggestion) :
    s ∈ withoutNeighbours candidates ↔ s ∈ candidates := by
  fun_induction withoutNeighbours candidates with
  | case1 u rest ih => simpa using ih
  | case2 t u rest _ ih => rw [List.mem_cons, ih, ← List.mem_cons]
  | case3 rest _ => rfl

/-- **Without its repetitions a sorted list ascends strictly**, since candidates with the same key
are the same and stand side by side. -/
theorem pairwise_withoutNeighbours {typed : List Char} {candidates : List Suggestion}
    (hkeyed : Keyed typed candidates)
    (hsorted : candidates.Pairwise fun s t => key typed s ≤ key typed t) :
    (withoutNeighbours candidates).Pairwise fun s t => key typed s < key typed t := by
  fun_induction withoutNeighbours candidates with
  | case1 u rest ih =>
    exact ih (fun s hs t ht => hkeyed s (.tail _ hs) t (.tail _ ht)) hsorted.of_cons
  | case2 t u rest hne ih =>
    refine List.pairwise_cons.mpr ⟨fun v hv => ?_,
      ih (fun s hs t ht => hkeyed s (.tail _ hs) t (.tail _ ht)) hsorted.of_cons⟩
    obtain ⟨htu, hrest⟩ := List.pairwise_cons.mp hsorted
    have hlt : key typed t < key typed u :=
      (htu u (.head _)).lt_of_ne fun heq => hne (hkeyed t (.head _) u (.tail _ (.head _)) heq)
    rcases List.mem_cons.mp ((mem_withoutNeighbours _).mp hv) with rfl | hv
    · exact hlt
    · exact hlt.trans_le ((List.pairwise_cons.mp hrest).1 v hv)
  | case3 rest hshort =>
    match rest, hshort with
    | [], _ => exact .nil
    | [s], _ => exact List.pairwise_singleton _ s
    | s :: t :: rest, hshort => exact absurd rfl (hshort s t rest)

/-- The candidates in their order, each once. -/
def ranked (typed : List Char) (candidates : List Suggestion) : List Suggestion :=
  withoutNeighbours (candidates.mergeSort fun s t => (order typed s t).isLE)

variable {typed : List Char} {candidates candidates' : List Suggestion}

theorem mem_ranked {s : Suggestion} : s ∈ ranked typed candidates ↔ s ∈ candidates :=
  (mem_withoutNeighbours _).trans List.mem_mergeSort

theorem pairwise_ranked (h : Keyed typed candidates) :
    (ranked typed candidates).Pairwise fun s t => key typed s < key typed t := by
  refine pairwise_withoutNeighbours
    (fun s hs t ht => h s (List.mem_mergeSort.mp hs) t (List.mem_mergeSort.mp ht)) ?_
  have hsorted := @List.pairwise_mergeSort _ (fun s t => (order typed s t).isLE)
    (fun s t u => by simpa only [order_isLE_iff] using le_trans)
    (fun s t => by simpa only [Bool.or_eq_true, order_isLE_iff] using le_total _ _) candidates
  exact hsorted.imp fun h => (order_isLE_iff typed _ _).mp h

theorem nodup_ranked (h : Keyed typed candidates) : (ranked typed candidates).Nodup :=
  (pairwise_ranked h).imp fun hlt heq => absurd (heq ▸ hlt) (lt_irrefl _)

theorem length_ranked (h : Keyed typed candidates) :
    (ranked typed candidates).length = candidates.dedup.length :=
  ((List.perm_ext_iff_of_nodup (nodup_ranked h) candidates.nodup_dedup).mpr fun s => by
    rw [mem_ranked, List.mem_dedup]).length_eq

/-- **The order of the candidates does not matter.** -/
theorem ranked_congr (h : Keyed typed candidates) (hsame : ∀ s, s ∈ candidates ↔ s ∈ candidates') :
    ranked typed candidates = ranked typed candidates' := by
  have h' : Keyed typed candidates' :=
    fun s hs t ht => h s ((hsame s).mpr hs) t ((hsame t).mpr ht)
  have hperm : (ranked typed candidates).Perm (ranked typed candidates') :=
    (List.perm_ext_iff_of_nodup (nodup_ranked h) (nodup_ranked h')).mpr fun s => by
      rw [mem_ranked, mem_ranked, hsame]
  exact hperm.eq_of_pairwise (fun s t _ _ hst hts => absurd (hst.trans hts) (lt_irrefl _))
    (pairwise_ranked h) (pairwise_ranked h')

/-! ## The top of the candidates -/

/-- How many suggestions there are when `n` are at hand. -/
def cut (limit : Option Nat) (n : Nat) : Nat := limit.elim n fun k => min k n

theorem best_eq_take (typed : List Char) (limit : Option Nat) (candidates : List Suggestion) :
    best typed limit candidates =
      (ranked typed candidates).take (cut limit (ranked typed candidates).length) := by
  cases limit with
  | none => exact (List.take_length).symm
  | some n =>
    change (ranked typed candidates).take n = (ranked typed candidates).take (min n _)
    exact List.take_eq_take_iff.mpr (by rw [min_assoc, min_self])

/-- The suggestions are the top of the candidates: candidates in strictly ascending order of rank,
name, kind and number, as many as the limit lets through, and no other candidate stands before one
of them. -/
structure IsTop (typed : List Char) (limit : Option Nat)
    (candidates suggestions : List Suggestion) : Prop where
  subset : suggestions ⊆ candidates
  sorted : suggestions.Pairwise fun s t => key typed s < key typed t
  nodup : suggestions.Nodup
  length : suggestions.length = cut limit candidates.dedup.length
  omitted : ∀ s ∈ candidates, s ∉ suggestions → ∀ t ∈ suggestions, key typed t < key typed s

/-- **The best candidates are the top of them.** -/
theorem isTop_best (h : Keyed typed candidates) (limit : Option Nat) :
    IsTop typed limit candidates (best typed limit candidates) := by
  rw [best_eq_take]
  set n := cut limit (ranked typed candidates).length with hn
  have hsplit := List.take_append_drop n (ranked typed candidates)
  have hsorted := pairwise_ranked h
  rw [← hsplit] at hsorted
  refine ⟨fun s hs => mem_ranked.mp (List.mem_of_mem_take hs), (pairwise_ranked h).sublist
    (List.take_sublist ..), (nodup_ranked h).sublist (List.take_sublist ..), ?_, ?_⟩
  · rw [List.length_take, hn, length_ranked h]
    cases limit with
    | none => exact min_self _
    | some k => exact min_eq_left (min_le_right _ _)
  · intro s hs hout t ht
    have hs : s ∈ (ranked typed candidates).drop n := by
      have hranked : s ∈ ranked typed candidates := mem_ranked.mpr hs
      rw [← hsplit, List.mem_append] at hranked
      exact hranked.resolve_left hout
    exact (List.pairwise_append.mp hsorted).2.2 t ht s hs

end Suggestion

open Suggestion (IsTop Separated Keyed word ofEntity ofWords best best_eq_take ranked_congr
  isTop_best)

/-! ## Forecasts -/

/-- Candidates without an entity are words. -/
theorem ForecastContext.eq_word_of_mem_candidates {l : Lookup} {address : List NamePart}
    {typed : List Char} {c : ForecastContext} {s : Suggestion}
    (hs : s ∈ c.candidates l address typed) (hnone : s.entity = none) : s = word s.name := by
  have hentities {es : List Entity} (hs : s ∈ es.map ofEntity) : s = word s.name := by
    obtain ⟨e, _, rfl⟩ := List.mem_map.mp hs
    cases hnone
  have hwords {ws : List String} (hs : s ∈ ofWords typed ws) : s = word s.name := by
    obtain ⟨w, _, rfl⟩ := List.mem_map.mp hs
    rfl
  cases c with
  | bare =>
    obtain ⟨k, _, hs⟩ := List.mem_flatMap.mp hs
    exact hentities hs
  | metadata kind => exact hentities hs
  | orderKey source => exact hwords hs
  | flagName field => exact hwords hs

/-- Lookups that answer with the same entities give the same candidates. -/
theorem ForecastContext.candidates_perm {l l' : Lookup}
    (h : ∀ kind address typed, (l.byPrefix kind address typed).Perm
      (l'.byPrefix kind address typed))
    (c : ForecastContext) (address : List NamePart) (typed : List Char) :
    (c.candidates l address typed).Perm (c.candidates l' address typed) := by
  cases c with
  | bare => exact List.Perm.flatMap_left _ fun k _ => (h k address _).map ofEntity
  | metadata kind => exact (h kind address _).map ofEntity
  | orderKey source => exact .refl _
  | flagName field => exact .refl _

namespace Forecast

variable {l : Lookup} {options : CompilerOptions} {tokens : List Token} {cursor : Nat}

/-- Where there is a forecast: at a string that is of some kind, and no quoted text where names of
any kind may stand. -/
theorem of?_eq_some_iff {f : Forecast} :
    of? l options tokens cursor = some f ↔ ∃ p c, Place.at? tokens cursor = some p ∧
      p.context? = some c ∧ ¬(c = .bare ∧ p.kind.isText) ∧
      f = ⟨c, p.range,
        best (p.typed cursor) options.forecastLimit
          (c.candidates l p.address (p.typed cursor))⟩ := by
  simp only [of?, Option.bind_eq_bind, Option.bind_eq_some_iff]
  refine exists_congr fun p => ?_
  rw [← exists_and_left]
  refine exists_congr fun c => and_congr_right fun _ => and_congr_right fun _ => ?_
  by_cases htext : c = .bare ∧ p.kind.isText
  · rw [if_pos htext]
    exact ⟨fun h => (by cases h), fun h => absurd htext h.1⟩
  · rw [if_neg htext, Option.pure_def, Option.some_inj, eq_comm]
    exact (and_iff_right htext).symm

/-- What has been typed of the string under the cursor. -/
def typed (tokens : List Token) (cursor : Nat) : List Char :=
  (Place.at? tokens cursor).elim [] fun p => p.typed cursor

/-- The candidates for the cursor. -/
def candidates (l : Lookup) (tokens : List Token) (cursor : Nat) : List Suggestion :=
  (Place.at? tokens cursor).elim [] fun p =>
    p.context?.elim [] fun c => c.candidates l p.address (p.typed cursor)

theorem typed_eq {p : Place} (h : Place.at? tokens cursor = some p) :
    typed tokens cursor = p.typed cursor := by
  rw [typed, h, Option.elim_some]

theorem candidates_eq {p : Place} {c : ForecastContext} (h : Place.at? tokens cursor = some p)
    (hc : p.context? = some c) :
    candidates l tokens cursor = c.candidates l p.address (p.typed cursor) := by
  rw [candidates, h, Option.elim_some, hc, Option.elim_some]

/-- Candidates of different entities are told apart. -/
theorem keyed_candidates (h : Separated (candidates l tokens cursor)) :
    Keyed (typed tokens cursor) (candidates l tokens cursor) := by
  refine h.keyed (fun s hs hnone => ?_) _
  cases hplace : Place.at? tokens cursor with
  | none => simp [candidates, hplace] at hs
  | some p =>
    cases hcontext : p.context? with
    | none => simp [candidates, hplace, hcontext] at hs
    | some c =>
      rw [candidates_eq hplace hcontext] at hs
      exact ForecastContext.eq_word_of_mem_candidates hs hnone

/-- A topic without other names. -/
def plainTopic (id : UInt64) (name : String) : Entity := .topic ⟨id, name, [], none, default, []⟩

/-- The lookup that offers the same topics whatever is typed. -/
def offering (topics : List Entity) : Lookup where
  byName _ _ := []
  byPrefix kind _ _ := if kind = .topic then topics else []
  byId _ _ := none
  children _ _ := []

/-- Three topics, one of which is answered twice. -/
def threeTopics : List Entity :=
  [plainTopic 2 "ab", plainTopic 1 "a", plainTopic 2 "ab", plainTopic 3 "ab"]

/-- The tokens of `#a`. -/
def hashA : List Token := [⟨.symbol .hash, .between 0 1⟩, ⟨.string "a" .word, .between 1 2⟩]

/-- No more than two suggestions. -/
def upToTwo : CompilerOptions := { CompilerOptions.default with forecastLimit := some 2 }

end Forecast

end PixQuery
