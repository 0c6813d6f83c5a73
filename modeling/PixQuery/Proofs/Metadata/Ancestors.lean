import Mathlib.Data.List.Nodup
import Mathlib.Data.List.Perm.Subperm
import Mathlib.Data.Nat.Find
import PixQuery.Proofs.Metadata.Entities

/-!
# Each ancestor once

The way up goes from a node to its parent, and is cut off when it is as long as the list of nodes.
Every node that it would ever pass is on it by then: among more nodes than are stored one comes
twice, and from there on the way goes round in a ring of nodes that it has passed before. But a ring
and the way into it may have fewer nodes than are stored. Then the way is not cut off when it comes
round, and passes the nodes of the ring again.

What a way passes is said by steps to a parent alone (`up`), without the walk that lists it:
`passed` are the nodes as often as they are passed, and `forebears` has each of them once.

Results:
* `Snapshot.ancestors_eq_of_ends`, `Snapshot.length_ancestors`: a way that ends is never cut off,
  and any other is as long as the list of nodes.
* `Snapshot.getElem?_climb`, `Snapshot.climb_eq_passed`: the nodes on the way up, counted from its
  start.
* `Snapshot.mem_ancestors_iff`: all nodes that the way up passes are among the ancestors.
* `Snapshot.ancestors_once_iff`: when each of them is there once.
* `Snapshot.forebears_eq_ancestors_iff`: when the walk lists each ancestor once.
-/

namespace PixQuery

namespace Snapshot

variable {family : FlagFamily} {nodes : List (Node family)} {start : Option UInt64}
  {n : Node family}

/-! ## Ways that end -/

/-- The nodes on the way up from `start`, where it ends: each is the parent of the one before, and
the parent of the last is not stored. -/
inductive Ends (nodes : List (Node family)) : Option UInt64 → List (Node family) → Prop
  | top {start : Option UInt64} (h : start.bind (find? nodes) = none) : Ends nodes start []
  | step {start : Option UInt64} {node : Node family} {way : List (Node family)}
      (h : start.bind (find? nodes) = some node) (rest : Ends nodes node.parent way) :
      Ends nodes start (node :: way)

namespace Ends

variable {way way' : List (Node family)}

theorem unique (h : Ends nodes start way) (h' : Ends nodes start way') : way = way' := by
  induction h generalizing way' with
  | top hnone =>
    cases h' with
    | top => rfl
    | step hsome => rw [hnone] at hsome; cases hsome
  | step hsome _ ih =>
    cases h' with
    | top hnone => rw [hnone] at hsome; cases hsome
    | step hsome' rest' =>
      rw [hsome] at hsome'
      cases hsome'
      rw [ih rest']

theorem subset (h : Ends nodes start way) : way ⊆ nodes := by
  induction h with
  | top => exact List.nil_subset _
  | @step start node way hsome _ ih =>
    obtain ⟨id, -, hfind⟩ := Option.bind_eq_some_iff.mp hsome
    exact List.cons_subset.mpr ⟨List.mem_of_find?_eq_some hfind, ih⟩

/-- Behind every node stands the way up from its parent. -/
theorem exists_behind (h : Ends nodes start way) {node : Node family} (hmem : node ∈ way) :
    ∃ behind, Ends nodes node.parent behind ∧ behind.length < way.length := by
  induction h with
  | top => cases hmem
  | @step start front way _ rest ih =>
    rcases List.mem_cons.mp hmem with rfl | hmem
    · exact ⟨way, rest, Nat.lt_succ_self _⟩
    · obtain ⟨behind, hbehind, hlength⟩ := ih hmem
      exact ⟨behind, hbehind, Nat.lt_succ_of_lt hlength⟩

/-- A way that ends passes no node twice, or the way behind it would be longer than itself. -/
theorem nodup (h : Ends nodes start way) : way.Nodup := by
  induction h with
  | top => exact List.nodup_nil
  | step _ rest ih =>
    refine List.nodup_cons.mpr ⟨fun hmem => ?_, ih⟩
    obtain ⟨behind, hbehind, hlength⟩ := rest.exists_behind hmem
    rw [rest.unique hbehind] at hlength
    exact Nat.lt_irrefl _ hlength

theorem length_le (h : Ends nodes start way) : way.length ≤ nodes.length :=
  (List.subperm_of_subset h.nodup h.subset).length_le

theorem climb_eq (h : Ends nodes start way) {limit : Nat} (hlimit : way.length ≤ limit) :
    climb nodes limit start = way := by
  induction h generalizing limit with
  | top hnone => cases limit with
    | zero => rfl
    | succ n => rw [climb, hnone]
  | step hsome _ ih => cases limit with
    | zero => exact absurd hlimit (Nat.not_succ_le_zero _)
    | succ n =>
      simp only [climb, hsome]
      rw [ih (Nat.le_of_succ_le_succ hlimit)]

end Ends

/-- **A way up that ends is never cut off**, whatever nodes share a number and wherever rings
are. -/
theorem ancestors_eq_of_ends {way : List (Node family)} (h : Ends nodes start way) :
    ancestors nodes start = way :=
  h.climb_eq h.length_le

theorem length_climb (h : ∀ way, ¬ Ends nodes start way) (limit : Nat) :
    (climb nodes limit start).length = limit := by
  induction limit generalizing start with
  | zero => rfl
  | succ n ih =>
    cases hstart : start.bind (find? nodes) with
    | none => exact absurd (.top hstart) (h [])
    | some node =>
      have hnode := ih fun way rest => h (node :: way) (.step hstart rest)
      simp only [climb, hstart, List.length_cons, hnode]

/-- **A way up that never ends is cut off at the number of nodes.** -/
theorem length_ancestors (h : ∀ way, ¬ Ends nodes start way) :
    (ancestors nodes start).length = nodes.length :=
  length_climb h nodes.length

/-! ## Counting steps -/

/-- The node that is reached from the node with the identifier `start` by `k` steps to a parent. -/
def up (nodes : List (Node family)) : (k : Nat) → (start : Option UInt64) → Option (Node family)
  | 0, start => start.bind (find? nodes)
  | k + 1, start => (start.bind (find? nodes)).bind fun node => up nodes k node.parent

/-- The way up from `start` passes a node. -/
def Passes (nodes : List (Node family)) (start : Option UInt64) (n : Node family) : Prop :=
  ∃ k, up nodes k start = some n

/-- The nodes that the way up from `start` passes in fewer than `limit` steps, the nearest first and
each as often as it is passed. -/
def passed (nodes : List (Node family)) (limit : Nat) (start : Option UInt64) :
    List (Node family) :=
  (List.range limit).filterMap fun k => up nodes k start

theorem mem_of_up {k : Nat} (h : up nodes k start = some n) : n ∈ nodes := by
  induction k generalizing start with
  | zero =>
    obtain ⟨id, -, hfind⟩ := Option.bind_eq_some_iff.mp h
    exact List.mem_of_find?_eq_some hfind
  | succ k ih =>
    obtain ⟨node, -, hnode⟩ := Option.bind_eq_some_iff.mp h
    exact ih hnode

/-- Steps are taken one after the other. -/
theorem up_add (i j : Nat) (start : Option UInt64) : up nodes (i + j + 1) start =
    (up nodes i start).bind fun node => up nodes j node.parent := by
  induction i generalizing start with
  | zero =>
    rw [Nat.zero_add]
    rfl
  | succ i ih =>
    rw [Nat.add_right_comm i 1 j, up, up]
    cases start.bind (find? nodes) with
    | none => rfl
    | some node => exact ih node.parent

/-- Where the way comes back to a node, it goes on as it did before. -/
theorem up_add_congr {i j : Nat} (h : up nodes i start = up nodes j start) (k : Nat) :
    up nodes (i + k) start = up nodes (j + k) start := by
  cases k with
  | zero => exact h
  | succ k => rw [← Nat.add_assoc, ← Nat.add_assoc, up_add, up_add, h]

/-- **The nodes on the way up**, the nearest first, as far as the limit. -/
theorem getElem?_climb (limit k : Nat) (start : Option UInt64) :
    (climb nodes limit start)[k]? = if k < limit then up nodes k start else none := by
  induction limit generalizing k start with
  | zero => rfl
  | succ limit ih =>
    cases hstart : start.bind (find? nodes) with
    | none => cases k <;> simp [climb, up, hstart]
    | some node =>
      cases k with
      | zero => simp [climb, up, hstart]
      | succ k =>
        simp only [climb, up, hstart, List.getElem?_cons_succ, ih, Option.bind_some,
          Nat.add_lt_add_iff_right]

/-- **The walk lists what the way passes**, up to its limit. -/
theorem climb_eq_passed (limit : Nat) (start : Option UInt64) :
    climb nodes limit start = passed nodes limit start := by
  induction limit generalizing start with
  | zero => rfl
  | succ limit ih =>
    have hsucc : passed nodes (limit + 1) start = (up nodes 0 start).toList ++
        (List.range limit).filterMap fun k => up nodes (k + 1) start := by
      rw [passed, List.range_succ_eq_map, List.filterMap_cons, List.filterMap_map]
      cases up nodes 0 start <;> rfl
    rw [hsucc]
    cases hstart : start.bind (find? nodes) with
    | none => simp [climb, up, hstart]
    | some node => simp [climb, up, hstart, ih, passed]

theorem length_climb_le (limit : Nat) (start : Option UInt64) :
    (climb nodes limit start).length ≤ limit := by
  refine List.getElem?_eq_none_iff.mp ?_
  rw [getElem?_climb, if_neg (Nat.lt_irrefl limit)]

theorem up_of_getElem?_climb {limit k : Nat} (h : (climb nodes limit start)[k]? = some n) :
    up nodes k start = some n := by
  rw [getElem?_climb] at h
  split at h
  · exact h
  · cases h

theorem climb_subset (limit : Nat) (start : Option UInt64) : climb nodes limit start ⊆ nodes := by
  intro n hn
  obtain ⟨k, hk⟩ := List.mem_iff_getElem?.mp hn
  exact mem_of_up (up_of_getElem?_climb hk)

/-! ## Nothing is left out -/

/-- A way that is longer than the list of nodes comes back to a node. -/
theorem exists_up_eq {k : Nat} (hk : nodes.length ≤ k) (h : up nodes k start = some n) :
    ∃ i j, i < j ∧ j ≤ k ∧ up nodes i start = up nodes j start := by
  have hlast : (climb nodes (k + 1) start)[k]? = some n := by
    rw [getElem?_climb, if_pos (Nat.lt_succ_self k), h]
  obtain ⟨hlength, -⟩ := List.getElem?_eq_some_iff.mp hlast
  have hnodup : ¬ (climb nodes (k + 1) start).Nodup := fun hnodup => by
    have hle := (List.subperm_of_subset hnodup (climb_subset (k + 1) start)).length_le
    omega
  rw [List.nodup_iff_getElem?_ne_getElem?] at hnodup
  push Not at hnodup
  obtain ⟨i, j, hij, hj, heq⟩ := hnodup
  have hle := @length_climb_le family nodes (k + 1) start
  rw [getElem?_climb, getElem?_climb, if_pos (by omega), if_pos (by omega)] at heq
  exact ⟨i, j, hij, by omega, heq⟩

/-- Every node that the way passes comes before the limit: what comes later has come before. -/
theorem Passes.exists_lt (h : Passes nodes start n) :
    ∃ k < nodes.length, up nodes k start = some n := by
  obtain ⟨k, hk⟩ := h
  induction k using Nat.strongRecOn with
  | ind k ih =>
    by_cases hlt : k < nodes.length
    · exact ⟨k, hlt, hk⟩
    · obtain ⟨i, j, hij, hj, heq⟩ := exists_up_eq (Nat.le_of_not_lt hlt) hk
      have hback := up_add_congr heq (k - j)
      rw [Nat.add_sub_cancel' hj, hk] at hback
      exact ih (i + (k - j)) (by omega) hback

/-- **The ancestors are the nodes that the way up passes.** -/
theorem mem_ancestors_iff : n ∈ ancestors nodes start ↔ Passes nodes start n := by
  constructor
  · intro h
    obtain ⟨k, hk⟩ := List.mem_iff_getElem?.mp h
    exact ⟨k, up_of_getElem?_climb hk⟩
  · intro h
    obtain ⟨k, hlt, hk⟩ := h.exists_lt
    refine List.mem_iff_getElem?.mpr ⟨k, ?_⟩
    rw [ancestors, getElem?_climb, if_pos hlt, hk]

/-! ## Nothing comes twice -/

/-- The way up from `start` ends, or goes round through all nodes that are stored, none of which is
stored twice. -/
def PassesOnce (nodes : List (Node family)) (start : Option UInt64) : Prop :=
  (∃ way, Ends nodes start way) ∨ nodes.Nodup ∧ ∀ n ∈ nodes, Passes nodes start n

theorem nodup_ancestors_iff : (ancestors nodes start).Nodup ↔ PassesOnce nodes start := by
  have hsubset : ancestors nodes start ⊆ nodes := climb_subset nodes.length start
  constructor
  · intro hnodup
    by_cases hends : ∃ way, Ends nodes start way
    · exact .inl hends
    · have hlength := length_ancestors fun way hway => hends ⟨way, hway⟩
      have hperm := (List.subperm_of_subset hnodup hsubset).perm_of_length_le
        (Nat.le_of_eq hlength.symm)
      exact .inr ⟨hperm.nodup_iff.mp hnodup, fun n hn =>
        mem_ancestors_iff.mp (hperm.mem_iff.mpr hn)⟩
  · rintro (⟨way, hway⟩ | ⟨hnodup, hall⟩)
    · rw [ancestors_eq_of_ends hway]
      exact hway.nodup
    · have hback : nodes ⊆ ancestors nodes start := fun n hn => mem_ancestors_iff.mpr (hall n hn)
      have hperm := (List.subperm_of_subset hnodup hback).perm_of_length_le
        (length_climb_le nodes.length start)
      exact hperm.nodup_iff.mp hnodup

/-- The ancestors of a node, the root first. -/
def lineage (nodes : List (Node family)) (node : Node family) : List (Node family) :=
  (ancestors nodes node.parent).reverse

/-- **The ancestors, the nearest first**, are all nodes that the way up passes. Each is there once,
and none comes twice in an address, just when the way ends or goes round through all nodes. -/
theorem ancestors_once_iff (nodes : List (Node family)) (start : Option UInt64) :
    (∀ k n, (ancestors nodes start)[k]? = some n → up nodes k start = some n) ∧
      (∀ n, n ∈ ancestors nodes start ↔ Passes nodes start n) ∧
      ((ancestors nodes start).Nodup ↔ PassesOnce nodes start) ∧
      ∀ node, node.parent = start → ((lineage nodes node).Nodup ↔ PassesOnce nodes start) := by
  refine ⟨fun _ _ => up_of_getElem?_climb, fun _ => mem_ancestors_iff, nodup_ancestors_iff, ?_⟩
  rintro node rfl
  rw [lineage, List.nodup_reverse, nodup_ancestors_iff]

/-! ## Each ancestor once

What the walk should list: the nodes that it passes, each where it is passed first. -/

/-- **The ancestors on the way up from `start`**, the nearest first: each node that the way passes,
where it is passed for the first time. -/
def forebears (nodes : List (Node family)) (start : Option UInt64) : List (Node family) :=
  (List.range nodes.length).filterMap fun k =>
    (up nodes k start).filter fun n => ∀ j < k, up nodes j start ≠ some n

theorem mem_forebears_iff : n ∈ forebears nodes start ↔ Passes nodes start n := by
  simp only [forebears, List.mem_filterMap, List.mem_range, Option.filter_eq_some_iff,
    decide_eq_true_iff]
  constructor
  · rintro ⟨k, -, hk, -⟩
    exact ⟨k, hk⟩
  · intro h
    obtain ⟨k, hlt, hk⟩ := h.exists_lt
    exact ⟨Nat.find h, Nat.lt_of_le_of_lt (Nat.find_min' h hk) hlt, Nat.find_spec h,
      fun _ hj => Nat.find_min h hj⟩

theorem nodup_forebears (nodes : List (Node family)) (start : Option UInt64) :
    (forebears nodes start).Nodup := by
  refine List.Nodup.filterMap (fun i j n hi hj => ?_) List.nodup_range
  obtain ⟨hi, hfirst⟩ := Option.filter_eq_some_iff.mp hi
  obtain ⟨hj, hfirst'⟩ := Option.filter_eq_some_iff.mp hj
  rcases Nat.lt_trichotomy i j with hlt | heq | hlt
  · exact absurd hi (of_decide_eq_true hfirst' i hlt)
  · exact heq
  · exact absurd hj (of_decide_eq_true hfirst j hlt)

/-- The walk lists the ancestors in their order, and some of them again. -/
theorem forebears_sublist (nodes : List (Node family)) (start : Option UInt64) :
    (forebears nodes start).Sublist (ancestors nodes start) := by
  rw [ancestors, climb_eq_passed, forebears, passed]
  induction List.range nodes.length with
  | nil => exact List.Sublist.refl _
  | cons k ks ih =>
    rw [List.filterMap_cons, List.filterMap_cons]
    cases up nodes k start with
    | none => exact ih
    | some n =>
      rw [Option.filter_some]
      by_cases hfirst : ∀ j < k, up nodes j start ≠ some n
      · rw [if_pos (decide_eq_true hfirst)]
        exact ih.cons_cons n
      · rw [if_neg (mt of_decide_eq_true hfirst)]
        exact ih.cons n

/-- **The walk lists each ancestor once** just when the way passes each node once. -/
theorem forebears_eq_ancestors_iff :
    forebears nodes start = ancestors nodes start ↔ PassesOnce nodes start := by
  rw [← nodup_ancestors_iff]
  constructor
  · intro heq
    rw [← heq]
    exact nodup_forebears nodes start
  · intro hnodup
    have hsubset : ancestors nodes start ⊆ forebears nodes start := fun n hn =>
      mem_forebears_iff.mpr (mem_ancestors_iff.mp hn)
    exact (forebears_sublist nodes start).eq_of_length_le
      (List.subperm_of_subset hnodup hsubset).length_le

/-- A tag that is its own parent. -/
def ouroboros : Tag := ⟨1, "snake", [], some 1, .empty, []⟩

/-- A tag that is its own parent is its own ancestor twice when there is one more tag. -/
theorem not_nodup_lineage_ouroboros :
    let tags := [ouroboros, ⟨2, "tail", [], none, .empty, []⟩]
    ¬ (lineage tags ouroboros).Nodup ∧
      (byId ⟨tags, [], [], []⟩ .tag 1).map Entity.address = some ["snake", "snake"] := by
  decide

end Snapshot

end PixQuery
