import Mathlib.Data.List.Nodup
import PixQuery.Json.Schema

/-!
# What a schema accepts

A schema is decided on the members of an object one key after the other. For an object in which no
key is repeated it comes down to the members themselves, whatever their order.

Results:
* `Schema.accepts_object_iff`: when an object has a form.
* `Schema.accepts_array_iff`, `Schema.accepts_oneOf_iff`: when an array has a form, and when just
  one of some forms fits.
-/

namespace PixQuery

variable {ms : List (String × Json)} {key : String} {j : Json}

/-! ## Members -/

namespace Json

theorem filter_key_eq_nil (h : key ∉ ms.map Prod.fst) : ms.filter (fun m => m.1 == key) = [] :=
  List.filter_eq_nil_iff.mpr fun m hm hkey => h (List.mem_map.mpr ⟨m, hm, by simpa using hkey⟩)

theorem member_of_not_mem (h : key ∉ ms.map Prod.fst) : member ms key = .absent := by
  rw [member, filter_key_eq_nil h]

/-- The first member is found under a key that is not repeated behind it. -/
theorem member_cons_self (h : key ∉ ms.map Prod.fst) :
    member ((key, j) :: ms) key = .present j := by
  rw [member, List.filter_cons_of_pos (by simp), filter_key_eq_nil h]

/-- A member under another key is passed over. -/
theorem member_cons_of_ne {other : String} (h : other ≠ key) :
    member ((other, j) :: ms) key = member ms key := by
  rw [member, List.filter_cons_of_neg (by simpa using h), member]

/-- A member is found under its key when no key is repeated. -/
theorem member_of_mem (hkeys : (ms.map Prod.fst).Nodup) (h : (key, j) ∈ ms) :
    member ms key = .present j := by
  induction ms with
  | nil => cases h
  | cons m ms ih =>
    obtain ⟨hnew, hkeys⟩ := List.nodup_cons.mp hkeys
    rcases List.mem_cons.mp h with rfl | h
    · exact member_cons_self hnew
    · have hne : m.1 ≠ key := fun hkey => hnew (List.mem_map.mpr ⟨_, h, hkey.symm⟩)
      exact (member_cons_of_ne hne).trans (ih hkeys h)

end Json

namespace Schema

theorem describes_cons {other : String} {s : Schema} {described : List (String × Schema)} :
    describes ((other, s) :: described) key = (other == key || describes described key) := rfl

theorem describes_iff {described : List (String × Schema)} :
    describes described key = true ↔ key ∈ described.map Prod.fst := by
  simp [describes]

/-- Each described member has its form, or it is missing and may be. -/
theorem acceptsMembers_iff (hkeys : (ms.map Prod.fst).Nodup) {needed : Bool}
    {described : List (String × Schema)} : acceptsMembers needed described ms = true ↔
      ∀ d ∈ described, (∃ j, (d.1, j) ∈ ms ∧ d.2.accepts j = true) ∨
        needed = false ∧ d.1 ∉ ms.map Prod.fst := by
  induction described with
  | nil => simp [acceptsMembers]
  | cons d described ih =>
    obtain ⟨key, schema⟩ := d
    rw [acceptsMembers, Bool.and_eq_true, ih, List.forall_mem_cons]
    refine and_congr_left' ?_
    by_cases hkey : key ∈ ms.map Prod.fst
    · obtain ⟨⟨key, j⟩, hm, rfl⟩ := List.mem_map.mp hkey
      rw [Json.member_of_mem hkeys hm]
      constructor
      · exact fun h => .inl ⟨j, hm, h⟩
      · rintro (⟨j', hm', h⟩ | ⟨_, hnot⟩)
        · rwa [(Prod.mk.inj (List.inj_on_of_nodup_map hkeys hm hm' rfl)).2]
        · exact absurd hkey hnot
    · rw [Json.member_of_not_mem hkey]
      have hnone : ∀ j, (key, j) ∉ ms := fun j hm => hkey (List.mem_map.mpr ⟨_, hm, rfl⟩)
      simp [hnone]

/-! ## Forms -/

@[simp] theorem accepts_boolean (b : Bool) : boolean.accepts (.bool b) = true := rfl

@[simp] theorem accepts_text (s : String) : text.accepts (.text s) = true := rfl

@[simp] theorem accepts_word (words : List String) (s : String) :
    (word words).accepts (.text s) = words.contains s := rfl

@[simp] theorem accepts_integer (i : Int) : integer.accepts (.whole i) = true := rfl

@[simp] theorem accepts_integer_ofNat (n : Nat) : integer.accepts (.ofNat n) = true :=
  accepts_integer n

@[simp] theorem accepts_integer_null : integer.accepts .null = false := rfl

@[simp] theorem accepts_integer_text (s : String) : integer.accepts (.text s) = false := rfl

@[simp] theorem accepts_text_whole (i : Int) : text.accepts (.whole i) = false := rfl

@[simp] theorem accepts_null : null.accepts .null = true := rfl

@[simp] theorem accepts_null_whole (i : Int) : null.accepts (.whole i) = false := rfl

@[simp] theorem accepts_natural (n : Nat) : natural.accepts (.ofNat n) = true :=
  decide_eq_true (Int.natCast_nonneg n)

/-- **When an object has a form**, in which no key is repeated: what has to be there is there, all
that is described has its form, and in a closed form there is nothing else. -/
theorem accepts_object_iff (hkeys : (ms.map Prod.fst).Nodup) {closed : Bool}
    {required optional : List (String × Schema)} :
    (object closed required optional).accepts (.object ms) = true ↔
      (∀ d ∈ required, ∃ j, (d.1, j) ∈ ms ∧ d.2.accepts j = true) ∧
      (∀ d ∈ optional, ∀ j, (d.1, j) ∈ ms → d.2.accepts j = true) ∧
      (closed = true → ∀ m ∈ ms, m.1 ∈ (required ++ optional).map Prod.fst) := by
  have hoptional : ∀ d : String × Schema, (∃ j, (d.1, j) ∈ ms ∧ d.2.accepts j = true) ∨
      d.1 ∉ ms.map Prod.fst ↔ ∀ j, (d.1, j) ∈ ms → d.2.accepts j = true := by
    intro d
    constructor
    · rintro (⟨j, hm, h⟩ | hnot) j' hm'
      · rwa [← (Prod.mk.inj (List.inj_on_of_nodup_map hkeys hm hm' rfl)).2]
      · exact absurd (List.mem_map.mpr ⟨_, hm', rfl⟩) hnot
    · intro h
      by_cases hkey : d.1 ∈ ms.map Prod.fst
      · obtain ⟨⟨key, j⟩, hm, hd⟩ := List.mem_map.mp hkey
        obtain rfl : key = d.1 := hd
        exact .inl ⟨j, hm, h j hm⟩
      · exact .inr hkey
  simp only [accepts, Bool.and_eq_true, acceptsMembers_iff hkeys, hoptional, and_assoc,
    Bool.or_eq_true, Bool.not_eq_true', List.all_eq_true, describes_iff, List.map_append,
    List.mem_append, Bool.true_eq_false, false_and, or_false, true_and]
  refine and_congr_right' (and_congr_right' ?_)
  cases closed <;> simp

theorem acceptsMembers_cons {needed : Bool} {described : List (String × Schema)}
    (hnew : key ∉ described.map Prod.fst) :
    acceptsMembers needed described ((key, j) :: ms) = acceptsMembers needed described ms := by
  induction described with
  | nil => rfl
  | cons d described ih =>
    rw [List.map_cons, List.mem_cons, not_or] at hnew
    rw [acceptsMembers, acceptsMembers, ih hnew.2, Json.member_cons_of_ne hnew.1]

/-- The first member of an object, when it is described first and nowhere else. -/
theorem accepts_object_cons_iff {s : Schema} {closed : Bool}
    {required optional : List (String × Schema)} (hms : key ∉ ms.map Prod.fst)
    (hnew : key ∉ (required ++ optional).map Prod.fst) :
    (object closed ((key, s) :: required) optional).accepts (.object ((key, j) :: ms)) = true ↔
      s.accepts j = true ∧ (object closed required optional).accepts (.object ms) = true := by
  rw [List.map_append, List.mem_append, not_or] at hnew
  have hdescribed : (((key, j) :: ms).all fun m =>
      describes ((key, s) :: required) m.1 || describes optional m.1) =
      ms.all fun m => describes required m.1 || describes optional m.1 := by
    rw [List.all_cons, describes_cons, beq_self_eq_true, Bool.true_or, Bool.true_or, Bool.true_and]
    rw [Bool.eq_iff_iff, List.all_eq_true, List.all_eq_true]
    refine forall₂_congr fun m hm => ?_
    have hne : (key == m.1) = false := beq_eq_false_iff_ne.mpr fun h =>
      hms (List.mem_map.mpr ⟨m, hm, h.symm⟩)
    rw [describes_cons, hne, Bool.false_or]
  simp only [accepts, acceptsMembers, Json.member_cons_self hms, acceptsMembers_cons hnew.1,
    acceptsMembers_cons hnew.2, hdescribed, Bool.and_eq_true, and_assoc]

theorem accepts_array_iff {least : Nat} {items : Schema} {xs : List Json} :
    (array least items).accepts (.array xs) = true ↔
      least ≤ xs.length ∧ ∀ x ∈ xs, items.accepts x = true := by
  simp [accepts]

/-- A list whose items are written one by one. -/
theorem accepts_array_map_iff {α : Type} {write : α → Json} {items : Schema} {as : List α} :
    (array 0 items).accepts (.array (as.map write)) = true ↔
      ∀ a ∈ as, items.accepts (write a) = true := by
  simp [accepts_array_iff]

/-- A list that must not be empty. -/
theorem accepts_array_map_one_iff {α : Type} {write : α → Json} {items : Schema} {as : List α} :
    (array 1 items).accepts (.array (as.map write)) = true ↔
      as ≠ [] ∧ ∀ a ∈ as, items.accepts (write a) = true := by
  simp [accepts_array_iff, Nat.one_le_iff_ne_zero]

theorem countAccepting_eq (schemas : List Schema) (j : Json) :
    countAccepting schemas j = schemas.countP fun s => s.accepts j := by
  induction schemas with
  | nil => rfl
  | cons s schemas ih => rw [countAccepting, ih, List.countP_cons, Nat.add_comm]

/-- **When just one of some forms fits.** -/
theorem accepts_oneOf_iff {schemas : List Schema} :
    (oneOf schemas).accepts j = true ↔ schemas.countP (fun s => s.accepts j) = 1 := by
  rw [accepts, countAccepting_eq, beq_iff_eq]

/-- The first of two forms. -/
theorem accepts_oneOf_left {s t : Schema} (hs : s.accepts j = true) (ht : t.accepts j = false) :
    (oneOf [s, t]).accepts j = true := by
  simp [accepts_oneOf_iff, hs, ht]

/-- The second of two forms. -/
theorem accepts_oneOf_right {s t : Schema} (hs : s.accepts j = false) (ht : t.accepts j = true) :
    (oneOf [s, t]).accepts j = true := by
  simp [accepts_oneOf_iff, hs, ht]

end Schema

end PixQuery
