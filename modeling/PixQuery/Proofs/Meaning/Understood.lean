import Mathlib.Data.List.Forall2
import PixQuery.Meaning.Basic

/-!
# What is understood step by step

A part of a query is understood in steps, the first of which that finds a fault ends it. Here is
what a result says of the steps before it, and when a row of parts is understood.

Two outcomes are alike when both are results that are related, or both are faults. What is
understood step by step is alike when its steps are.

Results:
* `Understood.exists_of_bind`, `Understood.exists_of_mem_mapM`: a result comes from results.
* `Understood.mapM_eq_ok_iff`: a row of parts is understood when each part is, as the row of
  results.
* `Understood.mapM_eq_error_iff`: the fault of a row is that of the first part that has one.
* `Understood.Alike.bind`: outcomes of alike steps are alike.
* `Understood.alike_mapM_of_perm`: a row of parts is understood in any order, or in none.
-/

namespace PixQuery

namespace Understood

variable {α β : Type}

theorem exists_of_bind {x : Understood α} {f : α → Understood β} {b : β} (h : x >>= f = .ok b) :
    ∃ a, x = .ok a ∧ f a = .ok b := by
  cases x with
  | error fault => cases h
  | ok a => exact ⟨a, rfl, h⟩

theorem exists_of_map {x : Understood α} {f : α → β} {b : β} (h : x.map f = .ok b) :
    ∃ a, x = .ok a ∧ f a = b := by
  cases x with
  | error fault => cases h
  | ok a => exact ⟨a, rfl, Except.ok.inj h⟩

theorem ok_bind (a : α) (f : α → Understood β) : (Except.ok a >>= f) = f a := rfl

theorem map_eq_error_iff {x : Understood α} {f : α → β} {fault : SemanticFault} :
    x.map f = .error fault ↔ x = .error fault := by
  cases x with
  | error other => rw [Except.map, Except.error.injEq, Except.error.injEq]
  | ok a => exact ⟨fun h => (by cases h), fun h => (by cases h)⟩

/-- A row of parts is understood as the row of what each part is understood as. -/
theorem mapM_eq_ok_iff {f : α → Understood β} {as : List α} {bs : List β} :
    as.mapM f = .ok bs ↔ List.Forall₂ (fun a b => f a = .ok b) as bs := by
  constructor
  · intro h
    induction as generalizing bs with
    | nil =>
      obtain rfl := Except.ok.inj h
      exact .nil
    | cons a as ih =>
      rw [List.mapM_cons] at h
      obtain ⟨b, hb, h⟩ := exists_of_bind h
      obtain ⟨rest, hrest, h⟩ := exists_of_bind h
      obtain rfl := Except.ok.inj h
      exact .cons hb (ih hrest)
  · intro h
    induction h with
    | nil => rfl
    | cons hb _ ih =>
      rw [List.mapM_cons, hb, ok_bind, ih]
      rfl

theorem exists_of_mem_mapM {f : α → Understood β} {as : List α} {bs : List β}
    (h : as.mapM f = .ok bs) : ∀ b ∈ bs, ∃ a ∈ as, f a = .ok b := by
  rw [mapM_eq_ok_iff] at h
  induction h with
  | nil => exact fun b hb => by cases hb
  | @cons a c as bs hc _ ih =>
    refine List.forall_mem_cons.mpr ⟨⟨a, List.mem_cons_self, hc⟩, fun b hb => ?_⟩
    obtain ⟨a', ha', hab⟩ := ih b hb
    exact ⟨a', List.mem_cons_of_mem a ha', hab⟩

/-- Each member is understood as a member of what comes out. -/
theorem exists_mem_of_mapM {f : α → Understood β} {as : List α} {bs : List β}
    (h : as.mapM f = .ok bs) : ∀ a ∈ as, ∃ b ∈ bs, f a = .ok b := by
  rw [mapM_eq_ok_iff] at h
  induction h with
  | nil => exact fun a ha => by cases ha
  | @cons a b as bs hb _ ih =>
    refine List.forall_mem_cons.mpr ⟨⟨b, List.mem_cons_self, hb⟩, fun a' ha' => ?_⟩
    obtain ⟨b', hb', hab⟩ := ih a' ha'
    exact ⟨b', List.mem_cons_of_mem b hb', hab⟩

theorem ne_nil_of_mapM {f : α → Understood β} {a : α} {as : List α} {bs : List β}
    (h : (a :: as).mapM f = .ok bs) : bs ≠ [] := by
  rintro rfl
  cases mapM_eq_ok_iff.mp h

/-- Where each part is understood, a row of parts is. -/
theorem exists_mapM {f : α → Understood β} {as : List α}
    (h : ∀ a ∈ as, ∃ b, f a = .ok b) : ∃ bs, as.mapM f = .ok bs := by
  induction as with
  | nil => exact ⟨[], rfl⟩
  | cons a as ih =>
    obtain ⟨⟨b, hb⟩, has⟩ := List.forall_mem_cons.mp h
    obtain ⟨bs, hbs⟩ := ih has
    exact ⟨b :: bs, by rw [List.mapM_cons, hb, ok_bind, hbs]; rfl⟩

/-- Where all parts are understood, none is left out. -/
theorem filterMap_toOption_of_mapM {f : α → Understood β} {as : List α} {bs : List β}
    (h : as.mapM f = .ok bs) : (as.filterMap fun a => (f a).toOption) = bs := by
  rw [mapM_eq_ok_iff] at h
  induction h with
  | nil => rfl
  | cons hb _ ih =>
    rw [List.filterMap_cons, hb, ih]
    rfl

theorem toOption_map (x : Understood α) (f : α → β) : (x.map f).toOption = x.toOption.map f := by
  cases x <;> rfl

theorem toOption_bind (x : Understood α) (f : α → Understood β) :
    (x >>= f).toOption = x.toOption.bind fun a => (f a).toOption := by
  cases x <;> rfl

theorem mapM_eq_ok {γ : Type} {R : γ → α → Prop} {f : α → Understood β} {h : γ → β} {cs : List γ}
    {as : List α} (hcs : List.Forall₂ R cs as) (hf : ∀ c ∈ cs, ∀ a, R c a → f a = .ok (h c)) :
    as.mapM f = .ok (cs.map h) := by
  induction hcs with
  | nil => rfl
  | cons hca _ ih =>
    rw [List.mapM_cons, hf _ List.mem_cons_self _ hca, ok_bind,
      ih fun c hc => hf c (List.mem_cons_of_mem _ hc)]
    rfl

theorem mapM_congr {γ : Type} {R : γ → α → Prop} {f g : α → Understood β}
    {cs : List γ} {as : List α}
    (hcs : List.Forall₂ R cs as) (h : ∀ c a, R c a → f a = g a) : as.mapM f = as.mapM g := by
  induction hcs with
  | nil => rfl
  | cons hca _ ih => rw [List.mapM_cons, List.mapM_cons, h _ _ hca, ih]

/-- Where all members are understood, each one is. -/
theorem exists_of_mapM_eq_ok {γ : Type} {R : γ → α → Prop} {f : α → Understood β} {cs : List γ}
    {as : List α} {bs : List β} (hcs : List.Forall₂ R cs as) (h : as.mapM f = .ok bs) :
    ∀ c ∈ cs, ∃ a, R c a ∧ ∃ b, f a = .ok b := by
  replace h : ∀ a ∈ as, ∃ b ∈ bs, f a = .ok b := exists_mem_of_mapM h
  induction hcs with
  | nil => exact fun c hc => by cases hc
  | cons hca _ ih =>
    obtain ⟨⟨b, _, hb⟩, h⟩ := List.forall_mem_cons.mp h
    exact List.forall_mem_cons.mpr ⟨⟨_, hca, b, hb⟩, ih h⟩

theorem mapM_map {γ : Type} (f : α → Understood β) (g : β → γ) (as : List α) :
    (as.mapM fun a => (f a).map g) = (as.mapM f).map (List.map g) := by
  induction as with
  | nil => rfl
  | cons a as ih =>
    rw [List.mapM_cons, List.mapM_cons, ih]
    cases f a with
    | error fault => rfl
    | ok b => cases as.mapM f <;> rfl

/-- What stands behind a part at fault is not looked at. -/
theorem mapM_append_error {f : α → Understood β} {before : List α} {a : α} {fault : SemanticFault}
    (hbefore : ∀ b ∈ before, ∃ c, f b = .ok c) (ha : f a = .error fault) (after : List α) :
    (before ++ a :: after).mapM f = .error fault := by
  induction before with
  | nil =>
    rw [List.nil_append, List.mapM_cons, ha]
    rfl
  | cons b before ih =>
    obtain ⟨⟨c, hc⟩, hbefore⟩ := List.forall_mem_cons.mp hbefore
    rw [List.cons_append, List.mapM_cons, hc, ok_bind, ih hbefore]
    rfl

/-- A row of parts is at fault exactly when a part is, and the fault is that of the first. -/
theorem mapM_eq_error_iff {f : α → Understood β} {as : List α} {fault : SemanticFault} :
    as.mapM f = .error fault ↔ ∃ before a after, as = before ++ a :: after ∧
      (∀ b ∈ before, ∃ c, f b = .ok c) ∧ f a = .error fault := by
  constructor
  · intro h
    induction as with
    | nil => cases h
    | cons a as ih =>
      rw [List.mapM_cons] at h
      cases ha : f a with
      | error other =>
        rw [ha] at h
        obtain rfl := Except.error.inj h
        exact ⟨[], a, as, rfl, (fun b hb => by cases hb), ha⟩
      | ok c =>
        rw [ha, ok_bind] at h
        cases has : as.mapM f with
        | error other =>
          rw [has] at h
          obtain rfl := Except.error.inj h
          obtain ⟨before, a', after, rfl, hbefore, ha'⟩ := ih has
          exact ⟨a :: before, a', after, rfl, List.forall_mem_cons.mpr ⟨⟨c, ha⟩, hbefore⟩, ha'⟩
        | ok cs =>
          rw [has] at h
          cases h
  · rintro ⟨before, a, after, rfl, hbefore, ha⟩
    exact mapM_append_error hbefore ha after

/-! ## Outcomes that are alike -/

section Alike

variable {γ δ : Type} {R : α → β → Prop} {S : γ → δ → Prop} {x : Understood α} {y : Understood β}

/-- Two results that are related, or two faults. -/
def Alike (R : α → β → Prop) : Understood α → Understood β → Prop
  | .ok a, .ok b => R a b
  | .error _, .error _ => True
  | .ok _, .error _ | .error _, .ok _ => False

theorem Alike.cases (h : Alike R x y) : (∃ a b, x = .ok a ∧ y = .ok b ∧ R a b) ∨
    ∃ f g, x = .error f ∧ y = .error g := by
  cases x with
  | ok a =>
    cases y with
    | ok b => exact .inl ⟨a, b, rfl, rfl, h⟩
    | error g => exact h.elim
  | error f =>
    cases y with
    | ok b => exact h.elim
    | error g => exact .inr ⟨f, g, rfl, rfl⟩

theorem Alike.bind {f : α → Understood γ} {g : β → Understood δ} (h : Alike R x y)
    (hfg : ∀ a b, R a b → Alike S (f a) (g b)) : Alike S (x >>= f) (y >>= g) := by
  obtain ⟨a, b, rfl, rfl, hab⟩ | ⟨_, _, rfl, rfl⟩ := h.cases
  · exact hfg a b hab
  · trivial

theorem Alike.map {f : α → γ} {g : β → δ} (h : Alike R x y) (hfg : ∀ a b, R a b → S (f a) (g b)) :
    Alike S (x.map f) (y.map g) :=
  h.bind fun a b hab => show Alike S (.ok (f a)) (.ok (g b)) from hfg a b hab

theorem Alike.ite {c d : Prop} [Decidable c] [Decidable d] {x' : Understood α} {y' : Understood β}
    (hcd : c ↔ d) (h : Alike R x y) (h' : Alike R x' y') :
    Alike R (if c then x else x') (if d then y else y') := by
  by_cases hc : c
  · rwa [if_pos hc, if_pos (hcd.mp hc)]
  · rwa [if_neg hc, if_neg (mt hcd.mpr hc)]

/-- What is understood of a part, beside the part. -/
theorem zip_of_mapM {f : α → Understood β} {as : List α} {bs : List β} (h : as.mapM f = .ok bs) :
    bs.zip as = as.filterMap fun a => (f a).toOption.map (·, a) := by
  rw [mapM_eq_ok_iff] at h
  induction h with
  | nil => rfl
  | cons hb _ ih =>
    rw [List.zip_cons_cons, ih, List.filterMap_cons, hb]
    rfl

theorem exists_mapM_of_perm {f : α → Understood β} {as as' : List α} (h : as.Perm as')
    {bs : List β} (hbs : as.mapM f = .ok bs) : ∃ bs', as'.mapM f = .ok bs' ∧ bs.Perm bs' ∧
      (bs.zip as).Perm (bs'.zip as') := by
  obtain ⟨bs', hbs'⟩ := @exists_mapM _ _ f as' fun a ha => by
    obtain ⟨b, _, hb⟩ := exists_mem_of_mapM hbs a (h.mem_iff.mpr ha)
    exact ⟨b, hb⟩
  refine ⟨bs', hbs', ?_, ?_⟩
  · rw [← filterMap_toOption_of_mapM hbs, ← filterMap_toOption_of_mapM hbs']
    exact h.filterMap _
  · rw [zip_of_mapM hbs, zip_of_mapM hbs']
    exact h.filterMap _

/-- **A row of parts in another order**: all parts are understood as before, each beside the result
that it had, or there is a fault in any order. -/
theorem alike_mapM_of_perm {f : α → Understood β} {as as' : List α} (h : as.Perm as') :
    Alike (fun bs bs' => bs.Perm bs' ∧ (bs.zip as).Perm (bs'.zip as'))
      (as.mapM f) (as'.mapM f) := by
  cases hbs : as.mapM f with
  | ok bs =>
    obtain ⟨bs', hbs', hperm⟩ := exists_mapM_of_perm h hbs
    rw [hbs']
    exact hperm
  | error fault =>
    cases hbs' : as'.mapM f with
    | ok bs' =>
      obtain ⟨bs, hok, _⟩ := exists_mapM_of_perm h.symm hbs'
      cases hbs.symm.trans hok
    | error fault' => trivial

end Alike

end Understood

end PixQuery
