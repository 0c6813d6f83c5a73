import PixQuery.Meaning.Sequence
import PixQuery.Metadata.Snapshot
import PixQuery.Proofs.Meaning.Understood

/-!
# Relations select slices of a sequence

A relation between members of a sequence group asks for the members at certain places: those from
one member to another, those before or behind one, or those between two. Some relations start at the
group, and look for the members among its children; others start at a member, and look for the group
first. Both find the same.

`Slice` lists these relations, `Slice.phrase` writes them, and `Slice.wants` says which places each
of them asks for.

Results:
* `take_drop_eq_slice`: what is left of a list when both ends are cut off is a slice of it.
* `Sequence.stretches_eq`, `Sequence.sequenceWith?_eq`: the group leads to its members, and a member
  to all members of its group.
* `Sequence.select_slice`: a relation selects the places it asks for.
* `Sequence.members_slice`: so it does in their order and none twice, and it is at fault when there
  are none; what starts at a member agrees with what starts at the group.
-/

namespace PixQuery

open Query (Path Phrase Value Family Predicate RangeLiteral Brackets Direction)

/-! ## Slices of lists -/

section Lists

variable {α : Type}

/-- The elements at the places that are wanted, in their order. -/
def slice (wanted : Nat → Bool) (l : List α) : List α :=
  (l.zipIdx.filter fun c => wanted c.2).map Prod.fst

theorem sublist_slice (wanted : Nat → Bool) (l : List α) : (slice wanted l).Sublist l := by
  have h := (List.filter_sublist (p := fun c : α × Nat => wanted c.2) (l := l.zipIdx)).map Prod.fst
  rwa [List.zipIdx_map_fst] at h

theorem mem_slice {wanted : Nat → Bool} {l : List α} {a : α} :
    a ∈ slice wanted l ↔ ∃ k, l[k]? = some a ∧ wanted k = true := by
  simp [slice, List.mem_zipIdx_iff_getElem?]

/-- Cutting a list off at both ends, with its places counted from `n` on. -/
private theorem filter_zipIdx_eq : ∀ (l : List α) (n start stop : Nat),
    ((l.zipIdx n).filter fun c => n + start ≤ c.2 && c.2 < n + stop).map Prod.fst =
      (l.take stop).drop start
  | [], n, start, stop => by simp
  | a :: l, n, start, 0 => by
    have hnone : ∀ c ∈ (a :: l).zipIdx n, ¬ (n + start ≤ c.2 && c.2 < n + 0) = true := by
      intro c _
      simp only [Bool.and_eq_true, decide_eq_true_eq]
      omega
    rw [List.filter_eq_nil_iff.mpr hnone]
    simp
  | a :: l, n, 0, stop + 1 => by
    have ih := filter_zipIdx_eq l (n + 1) 0 stop
    have hsame : ∀ c ∈ l.zipIdx (n + 1),
        (n + 1 + 0 ≤ c.2 && c.2 < n + 1 + stop) = (n + 0 ≤ c.2 && c.2 < n + (stop + 1)) := by
      intro c hc
      have hle := List.le_snd_of_mem_zipIdx hc
      rw [Bool.eq_iff_iff]
      simp only [Bool.and_eq_true, decide_eq_true_eq]
      omega
    rw [List.filter_congr hsame] at ih
    rw [List.zipIdx_cons, List.filter_cons_of_pos (by simp), List.map_cons, ih]
    simp
  | a :: l, n, start + 1, stop + 1 => by
    have ih := filter_zipIdx_eq l (n + 1) start stop
    have hplus : ∀ k, n + 1 + k = n + (k + 1) := fun k => by omega
    rw [hplus, hplus] at ih
    rw [List.zipIdx_cons, List.filter_cons_of_neg (by simp), ih]
    simp

/-- What is left of a list when both ends are cut off is a slice of it. -/
theorem take_drop_eq_slice (l : List α) (start stop : Nat) :
    (l.take stop).drop start = slice (fun k => start ≤ k && k < stop) l := by
  have h := filter_zipIdx_eq l 0 start stop
  simp only [Nat.zero_add] at h
  exact h.symm

theorem slice_congr {p q : Nat → Bool} {l : List α} (h : ∀ k < l.length, p k = q k) :
    slice p l = slice q l := by
  unfold slice
  rw [List.filter_congr]
  intro c hc
  exact h c.2 (by simpa using List.snd_lt_add_of_mem_zipIdx hc)

end Lists

/-! ## Relations that ask for a slice -/

/-- The relations with a sequence `g` and members `x` and `y` of it that ask for a slice. -/
inductive Slice where
  /-- From `x` to `y`: `g:[x,y]` with brackets of either shape at each end, or `g:x..y`. -/
  | range (brackets : Option Brackets)
  /-- Behind `x`: `g>x`. -/
  | above
  /-- From `x` on: `g>=x`. -/
  | atLeast
  /-- Before `x`: `g<x`. -/
  | below
  /-- Up to `x`: `g<=x`. -/
  | atMost
  /-- From `x` on or up to `x`: `x~+` and `x~-`. -/
  | onward (direction : Direction)
  /-- Between `x` and `y`, whichever comes first: `x~y`. -/
  | between

namespace Slice

/-- Where the parts of a phrase stand in the text. -/
structure Spans where
  value : Span
  relation : Span
  phrase : Span

/-- The relation as it is written, with the names of the sequence and of the members. -/
def phrase (group x y : Path) (spans : Spans) : Slice → Phrase
  | range brackets => binary group .equal (.range ⟨x, y, brackets⟩)
  | above => binary group .gt (value x)
  | atLeast => binary group .gte (value x)
  | below => binary group .lt (value x)
  | atMost => binary group .lte (value x)
  | onward direction => ⟨x, some (.unary direction spans.relation), spans.phrase⟩
  | between => binary x .similar (value y)
where
  binary (subject : Path) (family : Family) (predicate : Predicate) : Phrase :=
    ⟨subject, some (.binary family predicate spans.relation), spans.phrase⟩
  value (name : Path) : Predicate := .values [⟨none, false, name, spans.value⟩]

/-- Whether the relation asks for the place `k`, when `x` is at the place `i` and `y` at `j`. -/
def wants (bounds : RangeBounds) (i j : Nat) : Slice → Nat → Bool
  | range brackets, k =>
    let included := brackets.getD ⟨bounds.includeBegin, bounds.includeEnd⟩
    (if included.includeBegin then i ≤ k else i < k) &&
      (if included.includeEnd then k ≤ j else k < j)
  | above, k => i < k
  | atLeast, k => i ≤ k
  | below, k => k < i
  | atMost, k => k ≤ i
  | onward .ascending, k => i ≤ k
  | onward .descending, k => k ≤ i
  | between, k => min i j ≤ k && k ≤ max i j

end Slice

namespace Snapshot

/-- The tags of a snapshot differ in their numbers, and a path means one of them alone, which is a
sequence group. -/
structure HasSequence (s : Snapshot) (group : Tag) (name : Path) : Prop where
  ids : (s.tags.map Node.id).Nodup
  named : Sequence.tagsOf s.lookup name = [.tag group]
  flagged : TagFlags.isSequenceGroup group.flags = true

/-- The members of a group, in their order. -/
def membersOf (s : Snapshot) (group : Tag) : List Entity := s.lookup.children .tag group.id

/-- A single name means one tag alone, the member of the group at a place. -/
structure NamesMember (s : Snapshot) (group : Tag) (name : Path) (place : Nat) : Prop where
  single : name.isAddress = false
  named : ∃ member, Sequence.tagsOf s.lookup name = [member] ∧
    (s.membersOf group)[place]? = some member

variable {s : Snapshot} {group : Tag} {subject x y : Path} {i j : Nat}

/-- The members of a group are the tags whose parent it is, in the order of the snapshot. -/
theorem membersOf_eq (s : Snapshot) (group : Tag) :
    s.membersOf group =
      (s.tags.filter fun t => t.parent == some group.id).map fun t => .tag (addressed s.tags t) :=
  List.map_map

theorem HasSequence.nodup_ids (h : s.HasSequence group subject) :
    ((s.membersOf group).map Entity.id).Nodup := by
  have hids : (s.membersOf group).map Entity.id =
      (s.tags.filter fun t => t.parent == some group.id).map Node.id := by
    rw [membersOf_eq, List.map_map]
    rfl
  rw [hids]
  exact h.ids.sublist (List.filter_sublist.map Node.id)

/-- A child says who its parent is. -/
theorem parentOf?_of_mem_children {g : UInt64} {c : Entity} (hc : c ∈ s.lookup.children .tag g) :
    Sequence.parentOf? c = some g := by
  obtain ⟨t', ht', rfl⟩ := List.mem_map.mp hc
  obtain ⟨t, ht, rfl⟩ := List.mem_map.mp ht'
  exact eq_of_beq (List.mem_filter.mp ht).2

/-- A member says which group it belongs to. -/
theorem parentOf?_of_mem {c : Entity} (hc : c ∈ s.membersOf group) :
    Sequence.parentOf? c = some group.id :=
  parentOf?_of_mem_children hc

/-- What a name means is a tag of the snapshot, with the names of its ancestors. -/
theorem exists_of_mem_tagsOf {t : Tag} (h : Entity.tag t ∈ Sequence.tagsOf s.lookup subject) :
    ∃ t₀ ∈ s.tags, addressed s.tags t₀ = t := by
  simp only [Sequence.tagsOf, lookup, byName] at h
  split at h
  · cases h
  · obtain ⟨t', ht', heq⟩ := List.mem_map.mp h
    obtain ⟨t₀, ht₀, rfl⟩ := List.mem_map.mp ht'
    exact ⟨t₀, (List.mem_filter.mp (List.mem_filter.mp ht₀).1).1, Entity.tag.inj heq⟩

theorem find?_of_nodup : ∀ {nodes : List Tag} {t : Tag}, (nodes.map Node.id).Nodup → t ∈ nodes →
    find? nodes t.id = some t
  | n :: nodes, t, hids, ht => by
    rw [List.map_cons, List.nodup_cons] at hids
    rcases List.mem_cons.mp ht with rfl | ht
    · exact List.find?_cons_of_pos (by simp)
    · have hne : (n.id == t.id) = false := by
        rw [beq_eq_false_iff_ne]
        exact fun heq => hids.1 (heq ▸ List.mem_map_of_mem ht)
      unfold find?
      rw [List.find?_cons_of_neg (by simp [hne])]
      exact find?_of_nodup hids.2 ht

/-- The number of the group leads to the group. -/
theorem HasSequence.byId (h : s.HasSequence group subject) :
    s.lookup.byId .tag group.id = some (.tag group) := by
  have hmem : Entity.tag group ∈ Sequence.tagsOf s.lookup subject := by simp [h.named]
  obtain ⟨t₀, ht₀, rfl⟩ := exists_of_mem_tagsOf hmem
  have hfind := find?_of_nodup h.ids ht₀
  show (find? s.tags t₀.id).map _ = _
  rw [hfind]
  rfl

/-- The member at a place is the first one that shares its number. -/
theorem HasSequence.findIdx?_eq (h : s.HasSequence group subject) {c : Entity}
    (hc : (s.membersOf group)[i]? = some c) (wanted : Entity → Bool)
    (hwanted : ∀ m, wanted m = true ↔ m.id = c.id) :
    (s.membersOf group).findIdx? wanted = some i := by
  obtain ⟨hlt, hget⟩ := List.getElem?_eq_some_iff.mp hc
  rw [List.findIdx?_eq_some_iff_getElem]
  refine ⟨hlt, by rw [hwanted, hget], fun k hk => ?_⟩
  rw [hwanted, ← hget]
  intro heq
  have hlt' : k < ((s.membersOf group).map Entity.id).length := by
    rw [List.length_map]
    omega
  have hplaces : ((s.membersOf group).map Entity.id)[k]? =
      ((s.membersOf group).map Entity.id)[i]? := by
    rw [List.getElem?_map, List.getElem?_map, List.getElem?_eq_getElem (by omega),
      List.getElem?_eq_getElem hlt, Option.map_some, Option.map_some, heq]
  have hki := (List.getElem?_inj hlt' h.nodup_ids).mp hplaces
  omega

end Snapshot

namespace Sequence

variable {s : Snapshot} {group : Tag} {subject x y : Path} {i j : Nat}

/-- A member is found among the members of its group by its name. -/
theorem placeOf_eq (h : s.HasSequence group subject) (hx : s.NamesMember group x i) :
    placeOf s.lookup (s.membersOf group) x = .ok i := by
  obtain ⟨c, hnamed, hc⟩ := hx.named
  have hfind := h.findIdx?_eq hc (fun m => (idsOf s.lookup x).contains m.id) fun m => by
    simp [idsOf, hnamed]
  simp only [placeOf, hfind]

/-- A member leads to all members of its group, and to its own place. -/
theorem sequenceOf?_eq (h : s.HasSequence group subject) {c : Entity}
    (hc : (s.membersOf group)[i]? = some c) :
    sequenceOf? s.lookup c = some (s.membersOf group, i) := by
  have hparent := Snapshot.parentOf?_of_mem (List.mem_of_getElem? hc)
  have hfind := h.findIdx?_eq hc (fun m => m.id == c.id) fun m => by simp
  have hflags : TagFlags.isSequenceGroup (flagsOf (.tag group)) = true := h.flagged
  simp only [sequenceOf?, hparent, h.byId, Option.bind_eq_bind, Option.bind_some, if_pos hflags]
  show ((s.membersOf group).findIdx? _).bind _ = _
  rw [hfind]
  rfl

theorem sequenceWith?_eq (h : s.HasSequence group subject) (hx : s.NamesMember group x i) :
    sequenceWith? s.lookup x = some (s.membersOf group, i) := by
  obtain ⟨c, hnamed, hc⟩ := hx.named
  unfold sequenceWith?
  rw [hnamed, List.findSome?_cons, sequenceOf?_eq h hc]

/-- The group alone is stretched. -/
theorem stretches_eq (h : s.HasSequence group subject) (first last : Option End) :
    stretches s.lookup subject first last = stretch s.lookup first last (s.membersOf group) := by
  have hfilter : (tagsOf s.lookup subject).filter (fun t => TagFlags.isSequenceGroup (flagsOf t)) =
      [.tag group] := by
    rw [h.named]
    exact List.filter_cons_of_pos h.flagged
  simp only [stretches, hfilter, List.mapM_cons, List.mapM_nil]
  show (stretch s.lookup first last (s.membersOf group) >>= _) >>= _ = _
  cases stretch s.lookup first last (s.membersOf group) with
  | error fault => rfl
  | ok found => exact congrArg Except.ok (List.append_nil found)

theorem singleName_eq (hx : s.NamesMember group x i) (span : Span) :
    singleName [⟨none, false, x, span⟩] = .ok x := by
  unfold singleName
  simp [Value.isBare, hx.single]

/-- A stretch is a slice, an end that is left open going on to the end of the list. -/
theorem stretch_eq (h : s.HasSequence group subject) (hx : s.NamesMember group x i)
    (hy : s.NamesMember group y j) (includeBegin includeEnd : Bool) :
    stretch s.lookup (some ⟨x, includeBegin⟩) (some ⟨y, includeEnd⟩) (s.membersOf group) =
      .ok (slice (fun k => (if includeBegin then i ≤ k else i < k) &&
        (if includeEnd then k ≤ j else k < j)) (s.membersOf group)) := by
  simp only [stretch, placeOf_eq h hx, placeOf_eq h hy, Understood.ok_bind, pure_bind]
  refine congrArg Except.ok ((take_drop_eq_slice ..).trans (slice_congr fun k _ => ?_))
  cases includeBegin <;> cases includeEnd <;> grind

theorem stretch_from (h : s.HasSequence group subject) (hx : s.NamesMember group x i)
    (included : Bool) :
    stretch s.lookup (some ⟨x, included⟩) none (s.membersOf group) =
      .ok (slice (fun k => if included then i ≤ k else i < k) (s.membersOf group)) := by
  simp only [stretch, placeOf_eq h hx, Understood.ok_bind, pure_bind]
  refine congrArg Except.ok ((take_drop_eq_slice ..).trans (slice_congr fun k hk => ?_))
  cases included <;> grind

theorem stretch_to (h : s.HasSequence group subject) (hx : s.NamesMember group x i)
    (included : Bool) :
    stretch s.lookup none (some ⟨x, included⟩) (s.membersOf group) =
      .ok (slice (fun k => if included then k ≤ i else k < i) (s.membersOf group)) := by
  simp only [stretch, placeOf_eq h hx, Understood.ok_bind, pure_bind]
  refine congrArg Except.ok ((take_drop_eq_slice ..).trans (slice_congr fun k _ => ?_))
  cases included <;> grind

theorem between_eq (h : s.HasSequence group subject) (hx : s.NamesMember group x i)
    (hy : s.NamesMember group y j) :
    between s.lookup x y =
      .ok (slice (fun k => min i j ≤ k && k ≤ max i j) (s.membersOf group)) := by
  unfold between
  rw [sequenceWith?_eq h hx]
  show (placeOf s.lookup (s.membersOf group) y >>= _) = _
  rw [placeOf_eq h hy]
  refine congrArg Except.ok ((take_drop_eq_slice ..).trans (slice_congr fun k _ => ?_))
  grind

theorem onward_eq (h : s.HasSequence group subject) (hx : s.NamesMember group x i)
    (bounds : RangeBounds) (direction : Direction) :
    onward s.lookup x direction =
      slice ((Slice.onward direction).wants bounds i j) (s.membersOf group) := by
  unfold onward
  rw [sequenceWith?_eq h hx]
  cases direction with
  | ascending =>
    have hall := take_drop_eq_slice (s.membersOf group) i (s.membersOf group).length
    rw [List.take_length] at hall
    exact hall.trans (slice_congr fun k hk => by simp [Slice.wants, hk])
  | descending =>
    have hall := take_drop_eq_slice (s.membersOf group) 0 (i + 1)
    exact hall.trans (slice_congr fun k _ => by grind [Slice.wants])

/-- A relation selects the members at the places it asks for. -/
theorem select_slice (h : s.HasSequence group subject) (hx : s.NamesMember group x i)
    (hy : s.NamesMember group y j) (bounds : RangeBounds) (spans : Slice.Spans) (form : Slice) :
    select s.lookup bounds (form.phrase subject x y spans) =
      .ok (slice (form.wants bounds i j) (s.membersOf group)) := by
  cases form with
  | range brackets => exact (stretches_eq h _ _).trans (stretch_eq h hx hy _ _)
  | above =>
    show (singleName _ >>= _) = _
    rw [singleName_eq hx]
    exact (stretches_eq h _ _).trans (stretch_from h hx false)
  | atLeast =>
    show (singleName _ >>= _) = _
    rw [singleName_eq hx]
    exact (stretches_eq h _ _).trans (stretch_from h hx true)
  | below =>
    show (singleName _ >>= _) = _
    rw [singleName_eq hx]
    exact (stretches_eq h _ _).trans (stretch_to h hx false)
  | atMost =>
    show (singleName _ >>= _) = _
    rw [singleName_eq hx]
    exact (stretches_eq h _ _).trans (stretch_to h hx true)
  | onward direction => exact congrArg Except.ok (onward_eq h hx bounds direction)
  | between =>
    show (singleName _ >>= _) = _
    rw [singleName_eq hy]
    exact between_eq h hx hy

/-- What starts at a member goes as far as what starts at the group. -/
theorem select_onward (h : s.HasSequence group subject) (hx : s.NamesMember group x i)
    (bounds : RangeBounds) (spans : Slice.Spans) :
    select s.lookup bounds ((Slice.onward .ascending).phrase subject x y spans) =
        select s.lookup bounds (Slice.atLeast.phrase subject x y spans) ∧
      select s.lookup bounds ((Slice.onward .descending).phrase subject x y spans) =
        select s.lookup bounds (Slice.atMost.phrase subject x y spans) := by
  have hselect := select_slice h hx hx bounds spans
  exact ⟨(hselect (.onward .ascending)).trans (hselect .atLeast).symm,
    (hselect (.onward .descending)).trans (hselect .atMost).symm⟩

/-- When `x` does not come behind `y`, both ends of `x~y` are known. -/
theorem select_between (h : s.HasSequence group subject) (hx : s.NamesMember group x i)
    (hy : s.NamesMember group y j) (bounds : RangeBounds) (spans : Slice.Spans) (hle : i ≤ j) :
    select s.lookup bounds (Slice.between.phrase subject x y spans) =
      select s.lookup bounds ((Slice.range (some ⟨true, true⟩)).phrase subject x y spans) := by
  rw [select_slice h hx hy, select_slice h hx hy]
  exact congrArg Except.ok (slice_congr fun k _ => by simp [Slice.wants, hle])

/-- **A relation selects a slice of its sequence.** The members at the places it asks for come in
their order and none comes twice. It is at fault when there are none. What starts at a member agrees
with what starts at the group. -/
theorem members_slice (h : s.HasSequence group subject) (hx : s.NamesMember group x i)
    (hy : s.NamesMember group y j) (bounds : RangeBounds) (spans : Slice.Spans) :
    (∀ form : Slice,
      let phrase := form.phrase subject x y spans
      let selected := slice (form.wants bounds i j) (s.membersOf group)
      members s.lookup bounds phrase =
          (if selected = [] then .error ⟨.unresolved "tag" phrase.subject.joined, phrase.range⟩
          else .ok selected) ∧
        selected.Sublist (s.membersOf group) ∧ (selected.map Entity.id).Nodup) ∧
    select s.lookup bounds ((Slice.onward .ascending).phrase subject x y spans) =
      select s.lookup bounds (Slice.atLeast.phrase subject x y spans) ∧
    select s.lookup bounds ((Slice.onward .descending).phrase subject x y spans) =
      select s.lookup bounds (Slice.atMost.phrase subject x y spans) ∧
    (i ≤ j → select s.lookup bounds (Slice.between.phrase subject x y spans) =
      select s.lookup bounds ((Slice.range (some ⟨true, true⟩)).phrase subject x y spans)) := by
  have honward := select_onward h hx (y := y) bounds spans
  refine ⟨fun form => ⟨?_, sublist_slice .., ?_⟩, honward.1, honward.2,
    select_between h hx hy bounds spans⟩
  · simp only [members, select_slice h hx hy, Understood.ok_bind, List.isEmpty_iff]
    rfl
  · exact h.nodup_ids.sublist ((sublist_slice ..).map Entity.id)

/-- A series of three parts. -/
def series : Tag := ⟨1, "series", [], none, ⟨12⟩, []⟩

/-- A snapshot with the series. -/
def seriesSnapshot : Snapshot where
  tags := [series, part 2 "one", part 3 "two", part 4 "three"]
  topics := []
  authors := []
  sourceTags := []
where
  part (id : UInt64) (name : String) : Tag := ⟨id, name, [], some 1, ⟨0⟩, []⟩

/-- A path of one bare word. -/
def wordPath (word : String) : Path := ⟨⟨word, .word, .point 0⟩, []⟩

theorem members_slice_series :
    let spans : Slice.Spans := ⟨.point 0, .point 0, .point 0⟩
    let selectedBy (form : Slice) : Understood (List UInt64) :=
      (members seriesSnapshot.lookup .default (form.phrase (wordPath "series") (wordPath "two")
        (wordPath "one") spans)).map (List.map Entity.id)
    selectedBy .between = .ok [2, 3] ∧
      selectedBy (.range none) = .error ⟨.unresolved "tag" "series", .point 0⟩ := by
  intro spans selectedBy
  have hseries : seriesSnapshot.HasSequence series (wordPath "series") :=
    ⟨by decide, by decide +kernel, by decide⟩
  have htwo : seriesSnapshot.NamesMember series (wordPath "two") 1 := ⟨rfl, _, rfl, rfl⟩
  have hone : seriesSnapshot.NamesMember series (wordPath "one") 0 := ⟨rfl, _, rfl, rfl⟩
  have hslice := (members_slice hseries htwo hone .default spans).1
  constructor
  · show Except.map _ (members _ _ _) = _
    rw [(hslice .between).1]
    rfl
  · show Except.map _ (members _ _ _) = _
    rw [(hslice (.range none)).1]
    rfl

end Sequence

end PixQuery
