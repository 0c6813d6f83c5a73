import Mathlib.Data.List.Nodup
import PixQuery.Meaning.Analysis
import PixQuery.Proofs.Meaning.Slices

/-!
# The members between two, in either order

`$m~n` asks for the members of a sequence from `m` to `n`, whichever comes first. The first name
leads to the sequence, and the second is looked for in it, so `$n~m` may lead elsewhere: where
members of several sequences share a name, one order may find members that the other does not, or
find none at all.

Both orders agree when both names lead to the same sequence. In a snapshot whose tags differ in
their numbers this is the only way to agree, but for names of which neither finds the other.

Results:
* `Sequence.markedPhrase_between`, `Sequence.exists_fault`: what `$m~n` means, and when it fails.
* `Sequence.placeOf_of_sequenceWith?`: a name leads to the place it is looked for at.
* `Sequence.between_swap`: when both orders find the same.
-/

namespace PixQuery

open Query (Part Path Value Predicate Phrase)
open Understood (Alike)

/-! ## Stretches of a list -/

section Lists

variable {l : List Entity} {a b c d : Nat}

/-- The place is taken, and no entity in front of it has the number of the one that takes it. -/
def IsFirst (l : List Entity) (k : Nat) : Prop :=
  ∃ e, l[k]? = some e ∧ ∀ k' e', l[k']? = some e' → e'.id = e.id → k ≤ k'

theorem isFirst_of_findIdx? {wanted : Entity → Bool} {k : Nat}
    (hwanted : ∀ e e' : Entity, e.id = e'.id → wanted e = wanted e')
    (h : l.findIdx? wanted = some k) : IsFirst l k := by
  obtain ⟨hlt, hk, hbefore⟩ := List.findIdx?_eq_some_iff_getElem.mp h
  refine ⟨l[k], List.getElem?_eq_getElem hlt, fun k' e' hk' hid => ?_⟩
  by_contra hlt'
  obtain ⟨hlen, rfl⟩ := List.getElem?_eq_some_iff.mp hk'
  exact hbefore k' (Nat.lt_of_not_le hlt') ((hwanted _ _ hid).trans hk)

theorem IsFirst.lt_length (h : IsFirst l a) : a < l.length := by
  obtain ⟨e, he, _⟩ := h
  exact (List.getElem?_eq_some_iff.mp he).1

theorem exists_findIdx? {wanted : Entity → Bool} {e : Entity} (he : e ∈ l) (h : wanted e = true) :
    ∃ k, l.findIdx? wanted = some k := by
  rw [← Option.isSome_iff_exists, List.findIdx?_isSome, List.any_eq_true]
  exact ⟨e, he, h⟩

/-- Two such places are the same when one entity takes both. -/
theorem IsFirst.eq_of_getElem? (ha : IsFirst l a) (hc : IsFirst l c) (h : l[a]? = l[c]?) :
    a = c := by
  obtain ⟨e, he, hfirst⟩ := ha
  obtain ⟨e', he', hfirst'⟩ := hc
  obtain rfl : e = e' := Option.some.inj (he.symm.trans (h.trans he'))
  exact Nat.le_antisymm (hfirst c e he' rfl) (hfirst' a e he rfl)

theorem length_stretch (hab : a ≤ b) (hb : b < l.length) :
    ((l.take (b + 1)).drop a).length = b + 1 - a := by
  rw [List.length_drop, List.length_take]
  omega

theorem head?_stretch (hab : a ≤ b) : ((l.take (b + 1)).drop a)[0]? = l[a]? := by
  rw [List.getElem?_drop, List.getElem?_take_of_lt (by omega)]
  rfl

/-- A stretch tells its ends, when its first member comes first. -/
theorem stretch_inj (ha : IsFirst l a) (hc : IsFirst l c) (hab : a ≤ b) (hcd : c ≤ d)
    (hb : b < l.length) (hd : d < l.length)
    (h : (l.take (b + 1)).drop a = (l.take (d + 1)).drop c) : a = c ∧ b = d := by
  have hac : a = c := ha.eq_of_getElem? hc (by rw [← head?_stretch hab, h, head?_stretch hcd])
  have hlength := congrArg List.length h
  rw [length_stretch hab hb, length_stretch hcd hd] at hlength
  exact ⟨hac, by omega⟩

end Lists

namespace Sequence

variable {s : Snapshot} {bounds : RangeBounds} {x y : Path} {members members' : List Entity}
  {i j p q : Nat}

/-! ## Members of a sequence -/

theorem id_of_byId {g : UInt64} {e : Entity} (h : s.lookup.byId .tag g = some e) : e.id = g := by
  have hfind : (Snapshot.find? s.tags g).map _ = some e := h
  obtain ⟨t, ht, rfl⟩ := Option.map_eq_some_iff.mp hfind
  have hid : (t.id == g) = true := List.find?_some (p := fun n : Tag => n.id == g) ht
  exact eq_of_beq hid

/-- A tag is in a sequence when it is a child of a sequence group. -/
theorem sequenceOf?_eq_some {tag : Entity} : sequenceOf? s.lookup tag = some (members, i) ↔
    ∃ g group, parentOf? tag = some g ∧ s.lookup.byId .tag g = some group ∧
      (flagsOf group).isSequenceGroup = true ∧ members = s.lookup.children .tag g ∧
      members.findIdx? (fun m => m.id == tag.id) = some i := by
  constructor
  · intro h
    obtain ⟨g, hg, h⟩ := Option.bind_eq_some_iff.mp h
    obtain ⟨group, hgroup, h⟩ := Option.bind_eq_some_iff.mp h
    obtain ⟨hflags, h⟩ := Option.ite_none_right_eq_some.mp h
    obtain ⟨place, hplace, h⟩ := Option.bind_eq_some_iff.mp h
    obtain ⟨rfl, rfl⟩ := Prod.mk.inj (Option.some.inj h)
    exact ⟨g, group, hg, hgroup, hflags, by rw [id_of_byId hgroup], hplace⟩
  · rintro ⟨g, group, hg, hgroup, hflags, rfl, hplace⟩
    rw [sequenceOf?, hg, Option.bind_eq_bind, Option.bind_some, hgroup, Option.bind_eq_bind,
      Option.bind_some, if_pos hflags, id_of_byId hgroup]
    simp only [hplace]
    rfl

theorem exists_of_sequenceWith? (h : sequenceWith? s.lookup x = some (members, i)) :
    ∃ tag ∈ tagsOf s.lookup x, ∃ g, members = s.lookup.children .tag g ∧
      members.findIdx? (fun m => m.id == tag.id) = some i := by
  obtain ⟨tag, hmem, htag⟩ := List.exists_of_findSome?_eq_some h
  obtain ⟨g, _, _, _, _, hmembers, hplace⟩ := sequenceOf?_eq_some.mp htag
  exact ⟨tag, hmem, g, hmembers, hplace⟩

theorem isFirst_of_sequenceWith? (h : sequenceWith? s.lookup x = some (members, i)) :
    IsFirst members i := by
  obtain ⟨_, _, _, _, hplace⟩ := exists_of_sequenceWith? h
  exact isFirst_of_findIdx? (fun e e' hid => by rw [hid]) hplace

theorem placeOf_eq_ok {lookup : Lookup} : placeOf lookup members y = .ok q ↔
    members.findIdx? (fun m => (idsOf lookup y).contains m.id) = some q := by
  unfold placeOf
  simp only
  cases members.findIdx? fun m => (idsOf lookup y).contains m.id with
  | some n =>
    exact ⟨fun h => congrArg some (Except.ok.inj h), fun h => congrArg _ (Option.some.inj h)⟩
  | none => exact ⟨nofun, nofun⟩

theorem isFirst_of_placeOf {lookup : Lookup} (h : placeOf lookup members y = .ok q) :
    IsFirst members q :=
  isFirst_of_findIdx? (fun e e' hid => by rw [hid]) (placeOf_eq_ok.mp h)

/-- What leads to a sequence is found there. -/
theorem exists_placeOf (h : sequenceWith? s.lookup x = some (members, i)) :
    ∃ p, placeOf s.lookup members x = .ok p := by
  obtain ⟨tag, hmem, _, _, hplace⟩ := exists_of_sequenceWith? h
  obtain ⟨hlt, hid, _⟩ := List.findIdx?_eq_some_iff_getElem.mp hplace
  have hwanted : (idsOf s.lookup x).contains members[i].id = true := by
    rw [eq_of_beq hid, List.contains_iff_mem]
    exact List.mem_map_of_mem hmem
  obtain ⟨p, hp⟩ := @exists_findIdx? members (fun m => (idsOf s.lookup x).contains m.id) _
    (List.getElem_mem hlt) hwanted
  exact ⟨p, placeOf_eq_ok.mpr hp⟩

/-- Sequences with a member in common are the same. -/
theorem eq_of_mem_of_mem (hx : sequenceWith? s.lookup x = some (members, i))
    (hy : sequenceWith? s.lookup y = some (members', j)) {e : Entity} (he : e ∈ members)
    (he' : e ∈ members') : members = members' := by
  obtain ⟨_, _, g, rfl, _⟩ := exists_of_sequenceWith? hx
  obtain ⟨_, _, g', rfl, _⟩ := exists_of_sequenceWith? hy
  have hparent := Snapshot.parentOf?_of_mem_children he
  rw [Snapshot.parentOf?_of_mem_children he'] at hparent
  rw [Option.some.inj hparent]

/-! ## Tags with different numbers -/

/-- All tags, as they are looked up. -/
def tagEntities (s : Snapshot) : List Entity :=
  s.tags.map fun t => .tag (Snapshot.addressed s.tags t)

theorem map_id_tagEntities (s : Snapshot) :
    (tagEntities s).map Entity.id = s.tags.map Node.id := List.map_map

theorem sublist_children (s : Snapshot) (g : UInt64) :
    (s.lookup.children .tag g).Sublist (tagEntities s) := by
  have hmap : s.lookup.children .tag g = (s.tags.filter fun t => t.parent == some g).map fun t =>
      Entity.tag (Snapshot.addressed s.tags t) := List.map_map
  rw [hmap]
  exact List.filter_sublist.map _

theorem sublist_tagsOf (s : Snapshot) (x : Path) :
    (tagsOf s.lookup x).Sublist (tagEntities s) := by
  show (s.byName .tag (nameParts x)).Sublist _
  unfold Snapshot.byName
  split
  · exact List.nil_sublist _
  · unfold Snapshot.select Snapshot.selectNodes
    simp only
    rw [List.map_map]
    exact (List.filter_sublist.trans List.filter_sublist).map _

/-- The number of one comes before that of the other among the tags. -/
def Before (s : Snapshot) (e e' : Entity) : Prop :=
  (s.tags.map Node.id).idxOf e.id < (s.tags.map Node.id).idxOf e'.id

theorem pairwise_before (hids : (s.tags.map Node.id).Nodup) :
    (tagEntities s).Pairwise (Before s) := by
  have hall : (s.tags.map Node.id).Pairwise fun a b =>
      (s.tags.map Node.id).idxOf a < (s.tags.map Node.id).idxOf b := by
    rw [List.pairwise_iff_getElem]
    intro k l hk hl hkl
    rwa [hids.idxOf_getElem, hids.idxOf_getElem]
  rw [List.pairwise_map] at hall
  exact List.pairwise_map.mpr hall

/-- Tags with one number are the same. -/
theorem eq_of_id_eq (hids : (s.tags.map Node.id).Nodup) {e e' : Entity} (he : e ∈ tagEntities s)
    (he' : e' ∈ tagEntities s) (h : e.id = e'.id) : e = e' :=
  List.inj_on_of_nodup_map (by rwa [map_id_tagEntities]) he he' h

/-- All members of a sequence lead to it. -/
theorem exists_sequenceOf?_of_mem {tag c : Entity}
    (h : sequenceOf? s.lookup tag = some (members, i))
    (hc : c ∈ members) : ∃ k, sequenceOf? s.lookup c = some (members, k) := by
  obtain ⟨g, group, _, hgroup, hflags, hmembers, _⟩ := sequenceOf?_eq_some.mp h
  obtain ⟨k, hk⟩ := @exists_findIdx? members (fun m => m.id == c.id) c hc (beq_self_eq_true _)
  have hparent := Snapshot.parentOf?_of_mem_children (hmembers ▸ hc)
  exact ⟨k, sequenceOf?_eq_some.mpr ⟨g, group, hparent, hgroup, hflags, hmembers, hk⟩⟩

/-- **A name leads to the place it is looked for at**, where tags differ in their numbers. -/
theorem placeOf_of_sequenceWith? (hids : (s.tags.map Node.id).Nodup)
    (h : sequenceWith? s.lookup x = some (members, i)) : placeOf s.lookup members x = .ok i := by
  obtain ⟨before, tag, behind, htags, htag, hnone⟩ := List.findSome?_eq_some_iff.mp h
  obtain ⟨g, _, _, _, _, hmembers, hplace⟩ := sequenceOf?_eq_some.mp htag
  have hsublist : members.Sublist (tagEntities s) := by
    rw [hmembers]
    exact sublist_children s g
  obtain ⟨hlt, hid, hbefore⟩ := List.findIdx?_eq_some_iff_getElem.mp hplace
  have hid : members[i].id = tag.id := eq_of_beq hid
  rw [placeOf_eq_ok, List.findIdx?_eq_some_iff_getElem]
  refine ⟨hlt, ?_, fun k hk hwanted => ?_⟩
  · rw [hid, List.contains_iff_mem]
    exact List.mem_map_of_mem (by rw [htags]; simp)
  -- a member in front with the name would have led to the sequence first
  obtain ⟨t, ht, htid⟩ := List.mem_map.mp (List.contains_iff_mem.mp hwanted)
  have hmem : members[k] ∈ members := List.getElem_mem (by omega)
  obtain rfl : t = members[k] :=
    eq_of_id_eq hids ((sublist_tagsOf s x).subset ht) (hsublist.subset hmem) htid
  obtain ⟨l, hl⟩ := exists_sequenceOf?_of_mem htag hmem
  rw [htags] at ht
  rcases List.mem_append.mp ht with ht | ht
  · cases hl.symm.trans (hnone _ ht)
  rcases List.mem_cons.mp ht with rfl | ht
  · exact hbefore k hk (beq_self_eq_true _)
  -- so it comes behind by name, and in front by place
  · have hnamed := (pairwise_before hids).sublist (sublist_tagsOf s x)
    rw [htags] at hnamed
    have htk : Before s tag members[k] :=
      List.rel_of_pairwise_cons (List.pairwise_append.mp hnamed).2.1 ht
    have hki : Before s members[k] members[i] :=
      List.pairwise_iff_getElem.mp ((pairwise_before hids).sublist hsublist) k i (by omega) hlt hk
    simp only [Before, hid] at hki htk
    omega

/-! ## Both names -/

/-- The path that is one string. -/
def nameOf (m : Part) : Path := ⟨m, []⟩

/-- The phrase `m~n`. -/
def betweenPhrase (m n : Part) (spans : Slice.Spans) : Phrase :=
  ⟨nameOf m,
    some (.binary .similar (.values [⟨none, false, nameOf n, spans.value⟩]) spans.relation),
    spans.phrase⟩

/-- The members between two places, both among them. -/
def stretchBetween (members : List Entity) (i q : Nat) : List Entity :=
  (members.take (max i q + 1)).drop (min i q)

theorem stretchBetween_comm (members : List Entity) (i q : Nat) :
    stretchBetween members i q = stretchBetween members q i := by
  rw [stretchBetween, stretchBetween, Nat.max_comm, Nat.min_comm]

/-- The first name leads to a place in a sequence, and the second is found there. -/
structure Finds (lookup : Lookup) (x y : Path) (members : List Entity) (i q : Nat) : Prop where
  sequence : sequenceWith? lookup x = some (members, i)
  other : placeOf lookup members y = .ok q

variable {m n : Part} {spans : Slice.Spans}

theorem markedPhrase_betweenPhrase {lookup : Lookup} (hm : m.kind.isText = false) :
    Analysis.markedPhrase lookup bounds .tag (betweenPhrase m n spans) =
      (between lookup (nameOf m) (nameOf n) >>= fun found =>
        if found.isEmpty then .error ⟨.unresolved itemName (nameOf m).joined, spans.phrase⟩
        else .ok found) := by
  have htext : ¬((betweenPhrase m n spans).subject.parts.any fun p => p.kind.isText) = true := by
    simpa [betweenPhrase, nameOf, Path.parts] using hm
  exact (if_neg htext).trans (if_pos rfl)

/-- **What `$m~n` means** when the first name leads to a sequence and the second is in it. -/
theorem markedPhrase_between (hm : m.kind.isText = false)
    (h : Finds s.lookup (nameOf m) (nameOf n) members i q) :
    Analysis.markedPhrase s.lookup bounds .tag (betweenPhrase m n spans) =
      .ok (stretchBetween members i q) := by
  have hlength := @length_stretch members (min i q) (max i q) (by omega)
    (Nat.max_lt.mpr
      ⟨(isFirst_of_sequenceWith? h.sequence).lt_length, (isFirst_of_placeOf h.other).lt_length⟩)
  have hne : ¬(stretchBetween members i q).isEmpty = true := by
    rw [List.isEmpty_iff_length_eq_zero, stretchBetween]
    omega
  rw [markedPhrase_betweenPhrase hm, between, h.sequence]
  simp only [h.other, Understood.ok_bind, pure_bind]
  exact if_neg hne

theorem exists_fault (hm : m.kind.isText = false)
    (h : ¬∃ members i q, Finds s.lookup (nameOf m) (nameOf n) members i q) :
    ∃ fault,
      Analysis.markedPhrase s.lookup bounds .tag (betweenPhrase m n spans) = .error fault := by
  rw [markedPhrase_betweenPhrase hm, between]
  cases hsequence : sequenceWith? s.lookup (nameOf m) with
  | none => exact ⟨_, rfl⟩
  | some found =>
    obtain ⟨members, i⟩ := found
    cases hother : placeOf s.lookup members (nameOf n) with
    | ok q => exact absurd ⟨members, i, q, hsequence, hother⟩ h
    | error fault =>
      simp only [hother]
      exact ⟨fault, rfl⟩

/-! ## Both orders -/

/-- The same tags, in any order. -/
def SameTags (found found' : List Entity) : Prop := ∀ e, e ∈ found ↔ e ∈ found'

/-- The second name is found where the first one leads. -/
def Reaches (lookup : Lookup) (x y : Path) : Prop := ∃ members i q, Finds lookup x y members i q

/-- Both names lead to one sequence, from the same places. -/
def Meets (lookup : Lookup) (x y : Path) : Prop :=
  ∃ members i j p q, Finds lookup x y members i q ∧ Finds lookup y x members j p ∧
    (i = p ∧ j = q ∨ i = j ∧ p = q)

/-- Both names lead to one sequence, if to any. -/
def SameSequence (lookup : Lookup) (x y : Path) : Prop :=
  (sequenceWith? lookup x).map Prod.fst = (sequenceWith? lookup y).map Prod.fst

theorem Finds.isFirst_min (h : Finds s.lookup x y members i q) : IsFirst members (min i q) := by
  rcases Nat.le_total i q with hle | hle
  · rw [Nat.min_eq_left hle]
    exact isFirst_of_sequenceWith? h.sequence
  · rw [Nat.min_eq_right hle]
    exact isFirst_of_placeOf h.other

theorem Finds.max_lt (h : Finds s.lookup x y members i q) : max i q < members.length :=
  Nat.max_lt.mpr
    ⟨(isFirst_of_sequenceWith? h.sequence).lt_length, (isFirst_of_placeOf h.other).lt_length⟩

theorem Finds.exists_mem (h : Finds s.lookup x y members i q) :
    ∃ e, e ∈ stretchBetween members i q := by
  obtain ⟨e, he, _⟩ := h.isFirst_min
  refine ⟨e, List.mem_of_getElem? (i := 0) ?_⟩
  rw [stretchBetween, head?_stretch (by omega), he]

/-- Stretches with a tag in common lie in one sequence. -/
theorem Finds.eq_of_mem (hx : Finds s.lookup x y members i q) (hy : Finds s.lookup y x members' j p)
    {e : Entity} (he : e ∈ stretchBetween members i q)
    (he' : e ∈ stretchBetween members' j p) : members = members' :=
  eq_of_mem_of_mem hx.sequence hy.sequence (List.mem_of_mem_take (List.mem_of_mem_drop he))
    (List.mem_of_mem_take (List.mem_of_mem_drop he'))

theorem Finds.unique {place otherPlace : Nat} (h : Finds s.lookup x y members i q)
    (h' : Finds s.lookup x y members' place otherPlace) :
    members = members' ∧ i = place ∧ q = otherPlace := by
  obtain ⟨rfl, rfl⟩ := Prod.mk.inj (Option.some.inj (h.sequence.symm.trans h'.sequence))
  exact ⟨rfl, rfl, Except.ok.inj (h.other.symm.trans h'.other)⟩

/-- Both orders mean the same list just when the names meet. -/
theorem Finds.stretch_eq_iff (hx : Finds s.lookup x y members i q)
    (hy : Finds s.lookup y x members' j p) :
    stretchBetween members i q = stretchBetween members' j p ↔ Meets s.lookup x y := by
  constructor
  · intro h
    obtain ⟨e, he⟩ := hx.exists_mem
    obtain rfl := hx.eq_of_mem hy he (h ▸ he)
    have hends :=
      stretch_inj hx.isFirst_min hy.isFirst_min (by omega) (by omega) hx.max_lt hy.max_lt h
    exact ⟨members, i, j, p, q, hx, hy, by omega⟩
  · rintro ⟨found, i', j', p', q', hx', hy', hends⟩
    obtain ⟨rfl, rfl, rfl⟩ := hx.unique hx'
    obtain ⟨rfl, rfl, rfl⟩ := hy.unique hy'
    rcases hends with ⟨rfl, rfl⟩ | ⟨rfl, rfl⟩
    · exact stretchBetween_comm ..
    · rfl

/-- Where tags differ in their numbers, both orders mean the same tags just when both names lead to
one sequence. -/
theorem Finds.sameTags_iff (hids : (s.tags.map Node.id).Nodup)
    (hx : Finds s.lookup x y members i q) (hy : Finds s.lookup y x members' j p) :
    SameTags (stretchBetween members i q) (stretchBetween members' j p) ↔
      SameSequence s.lookup x y := by
  unfold SameSequence
  rw [hx.sequence, hy.sequence, Option.map_some, Option.map_some, Option.some.injEq]
  constructor
  · intro h
    obtain ⟨e, he⟩ := hx.exists_mem
    exact hx.eq_of_mem hy he ((h e).mp he)
  · rintro rfl
    -- each name is looked for at the place that it leads to
    obtain rfl : p = i :=
      Except.ok.inj (hy.other.symm.trans (placeOf_of_sequenceWith? hids hx.sequence))
    obtain rfl : q = j :=
      Except.ok.inj (hx.other.symm.trans (placeOf_of_sequenceWith? hids hy.sequence))
    rw [stretchBetween_comm]
    exact fun _ => Iff.rfl

theorem Meets.reaches_iff {lookup : Lookup} (h : Meets lookup x y) :
    Reaches lookup x y ↔ Reaches lookup y x := by
  obtain ⟨members, i, j, p, q, hx, hy, _⟩ := h
  exact iff_of_true ⟨members, i, q, hx⟩ ⟨members, j, p, hy⟩

theorem SameSequence.reaches_iff (h : SameSequence s.lookup x y) :
    Reaches s.lookup x y ↔ Reaches s.lookup y x := by
  unfold SameSequence at h
  cases hx : sequenceWith? s.lookup x with
  | none =>
    rw [hx, Option.map_none, eq_comm, Option.map_eq_none_iff] at h
    refine iff_of_false ?_ ?_
    · rintro ⟨_, _, _, hfinds⟩
      cases hx.symm.trans hfinds.sequence
    · rintro ⟨_, _, _, hfinds⟩
      cases h.symm.trans hfinds.sequence
  | some found =>
    obtain ⟨members, i⟩ := found
    rw [hx, Option.map_some, eq_comm, Option.map_eq_some_iff] at h
    obtain ⟨⟨members, j⟩, hy, rfl⟩ := h
    obtain ⟨p, hp⟩ := exists_placeOf hx
    obtain ⟨q, hq⟩ := exists_placeOf hy
    exact iff_of_true ⟨members, i, q, hx, hq⟩ ⟨members, j, p, hy, hp⟩

/-- When both orders are alike, if it is known for what both find. -/
theorem alike_betweenPhrase_iff {R : List Entity → List Entity → Prop} {P : Prop}
    (hm : m.kind.isText = false) (hn : n.kind.isText = false) (spans spans' : Slice.Spans)
    (hfound : ∀ {members members' i j p q}, Finds s.lookup (nameOf m) (nameOf n) members i q →
      Finds s.lookup (nameOf n) (nameOf m) members' j p →
      (R (stretchBetween members i q) (stretchBetween members' j p) ↔ P))
    (hreaches : P → (Reaches s.lookup (nameOf m) (nameOf n) ↔
      Reaches s.lookup (nameOf n) (nameOf m))) :
    Alike R (Analysis.markedPhrase s.lookup bounds .tag (betweenPhrase m n spans))
        (Analysis.markedPhrase s.lookup bounds .tag (betweenPhrase n m spans')) ↔
      P ∨ ¬Reaches s.lookup (nameOf m) (nameOf n) ∧ ¬Reaches s.lookup (nameOf n) (nameOf m) := by
  by_cases hx : Reaches s.lookup (nameOf m) (nameOf n)
  · by_cases hy : Reaches s.lookup (nameOf n) (nameOf m)
    · obtain ⟨members, i, q, hfinds⟩ := id hx
      obtain ⟨members', j, p, hfinds'⟩ := id hy
      rw [markedPhrase_between hm hfinds, markedPhrase_between hn hfinds']
      exact (hfound hfinds hfinds').trans
        (or_iff_left fun hneither => hneither.1 hx).symm
    · obtain ⟨members, i, q, hfinds⟩ := id hx
      obtain ⟨fault, hfault⟩ := exists_fault hn hy
      rw [markedPhrase_between hm hfinds, hfault]
      exact iff_of_false id fun h =>
        h.elim (fun hP => hy ((hreaches hP).mp hx)) fun hneither => hneither.1 hx
  · obtain ⟨fault, hfault⟩ := exists_fault hm hx
    rw [hfault]
    by_cases hy : Reaches s.lookup (nameOf n) (nameOf m)
    · obtain ⟨members', j, p, hfinds'⟩ := id hy
      rw [markedPhrase_between hn hfinds']
      exact iff_of_false id fun h =>
        h.elim (fun hP => hx ((hreaches hP).mpr hy)) fun hneither => hneither.2 hy
    · obtain ⟨fault', hfault'⟩ := exists_fault hn hy
      rw [hfault']
      exact iff_of_true trivial (.inr ⟨hx, hy⟩)

/-- **When `$m~n` and `$n~m` agree.** They both fail when neither name is found where the other
leads. Otherwise they mean the same list just when both names lead to one sequence from the same
places, and where tags differ in their numbers they mean the same tags just when both names lead to
one sequence. -/
theorem between_swap (s : Snapshot) (bounds : RangeBounds) {m n : Part}
    (hm : m.kind.isText = false) (hn : n.kind.isText = false) (spans spans' : Slice.Spans) :
    let forth := Analysis.markedPhrase s.lookup bounds .tag (betweenPhrase m n spans)
    let back := Analysis.markedPhrase s.lookup bounds .tag (betweenPhrase n m spans')
    let neither := ¬Reaches s.lookup (nameOf m) (nameOf n) ∧ ¬Reaches s.lookup (nameOf n) (nameOf m)
    (Alike (· = ·) forth back ↔ Meets s.lookup (nameOf m) (nameOf n) ∨ neither) ∧
      ((s.tags.map Node.id).Nodup →
        (Alike SameTags forth back ↔ SameSequence s.lookup (nameOf m) (nameOf n) ∨ neither)) :=
  ⟨alike_betweenPhrase_iff hm hn spans spans' Finds.stretch_eq_iff Meets.reaches_iff,
    fun hids => alike_betweenPhrase_iff hm hn spans spans' (Finds.sameTags_iff hids)
      SameSequence.reaches_iff⟩

/-- Two volumes, both of which have a part one. -/
def volumesSnapshot : Snapshot where
  tags := [volume 1 "A", part 2 "one" 1, part 3 "two" 1, volume 4 "B", part 5 "one" 4,
    part 6 "three" 4]
  topics := []
  authors := []
  sourceTags := []
where
  volume (id : UInt64) (name : String) : Tag := ⟨id, name, [], none, ⟨12⟩, []⟩
  part (id : UInt64) (name : String) (volume : UInt64) : Tag := ⟨id, name, [], some volume, ⟨0⟩, []⟩

/-- What `$m~n` means in the volumes, for bare words `m` and `n`. -/
def volumesBetween (m n : String) : Understood (List Entity) :=
  Analysis.markedPhrase volumesSnapshot.lookup .default .tag
    (betweenPhrase ⟨m, .word, .point 0⟩ ⟨n, .word, .point 0⟩ ⟨.point 0, .point 0, .point 0⟩)

/-- The parts one and two are found from either side. -/
theorem between_swap_volumes :
    (volumesBetween "one" "two").map (List.map Entity.id) = .ok [2, 3] ∧
      Alike (· = ·) (volumesBetween "one" "two") (volumesBetween "two" "one") ∧
      Alike SameTags (volumesBetween "one" "two") (volumesBetween "two" "one") := by
  have hone : Finds volumesSnapshot.lookup (nameOf ⟨"one", .word, .point 0⟩)
      (nameOf ⟨"two", .word, .point 0⟩) (volumesSnapshot.lookup.children .tag 1) 0 1 :=
    ⟨by decide +kernel, by decide +kernel⟩
  have htwo : Finds volumesSnapshot.lookup (nameOf ⟨"two", .word, .point 0⟩)
      (nameOf ⟨"one", .word, .point 0⟩) (volumesSnapshot.lookup.children .tag 1) 1 0 :=
    ⟨by decide +kernel, by decide +kernel⟩
  have hswap := @between_swap volumesSnapshot .default ⟨"one", .word, .point 0⟩
    ⟨"two", .word, .point 0⟩ rfl rfl ⟨.point 0, .point 0, .point 0⟩ ⟨.point 0, .point 0, .point 0⟩
  refine ⟨by decide +kernel, hswap.1.mpr (.inl ⟨_, 0, 1, 0, 1, hone, htwo, .inl ⟨rfl, rfl⟩⟩),
    (hswap.2 (by decide)).mpr (.inl ?_)⟩
  rw [SameSequence, hone.sequence, htwo.sequence]
  rfl

/-- Part one leads to the first volume, where there is no part three, and part three leads to the
second, where there is a part one. -/
theorem not_alike_volumesBetween :
    volumesBetween "one" "three" = .error ⟨.unresolved "tag" "three", .between 0 1⟩ ∧
      (volumesBetween "three" "one").map (List.map Entity.id) = .ok [5, 6] ∧
      ¬Alike SameTags (volumesBetween "one" "three") (volumesBetween "three" "one") := by
  have hforth : volumesBetween "one" "three" =
      .error ⟨.unresolved "tag" "three", .between 0 1⟩ := by decide +kernel
  have hback : (volumesBetween "three" "one").map (List.map Entity.id) = .ok [5, 6] := by
    decide +kernel
  refine ⟨hforth, hback, fun halike => ?_⟩
  obtain ⟨found, _, hfound, _⟩ | ⟨_, fault, _, hfault⟩ := halike.cases
  · cases hforth.symm.trans hfound
  · rw [hfault] at hback
    cases hback

end Sequence

end PixQuery
