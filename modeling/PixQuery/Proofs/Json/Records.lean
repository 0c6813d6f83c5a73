import PixQuery.Diagnostic
import PixQuery.Proofs.Json.Schema

/-!
# Records are read back from documents

A record is written as an object with a member for each of its fields, and read from an object field
by field. Reading a field passes over the members under other keys, so what is read from an object
comes down to what is read from its members.

Results:
* `Json.mapM_map`, `Json.arrayOf?_map`: a list is read back if its items are.
* `Json.required_cons_self`, `Json.required_cons_of_ne` and their like: reading a field of an object
  member by member.
* `Json.word64?_ofNat`, `Span.ofJson?_json`: words and spans are read back.
-/

namespace PixQuery

namespace Json

variable {α β γ : Type} {ms : List (String × Json)} {key other : String} {j : Json}

@[simp] theorem members?_object : members? (.object ms) = some ms := rfl

@[simp] theorem text?_text (s : String) : text? (.text s) = some s := rfl

@[simp] theorem bool?_bool (b : Bool) : bool? (.bool b) = some b := rfl

/-! ## Lists -/

theorem mapM_map {read : β → Option γ} {write : α → β} {value : α → γ} : ∀ {as : List α},
    (∀ a ∈ as, read (write a) = some (value a)) → (as.map write).mapM read = some (as.map value)
  | [], _ => rfl
  | a :: as, h => by
    rw [List.map_cons, List.mapM_cons, h a List.mem_cons_self,
      mapM_map fun b hb => h b (List.mem_cons_of_mem a hb)]
    rfl

/-- **A list is read back** if its items are. -/
theorem arrayOf?_map {read : Json → Option α} {write : α → Json}
    (h : ∀ a, read (write a) = some a) (as : List α) :
    arrayOf? read (.array (as.map write)) = some as := by
  have hmap : (as.map write).mapM read = some (as.map id) := mapM_map fun a _ => h a
  rw [List.map_id] at hmap
  exact hmap

@[simp] theorem arrayOf?_ofTexts (texts : List String) :
    arrayOf? text? (ofTexts texts) = some texts :=
  arrayOf?_map text?_text texts

/-! ## Fields -/

section Fields

variable {read : Json → Option α} {default : α}

@[simp] theorem required_cons_self (h : key ∉ ms.map Prod.fst) :
    required read ((key, j) :: ms) key = read j := by
  rw [required, member_cons_self h]

@[simp] theorem required_cons_of_ne (h : other ≠ key) :
    required read ((other, j) :: ms) key = required read ms key := by
  rw [required, member_cons_of_ne h, required]

@[simp] theorem defaulted_nil : defaulted read default [] key = some default := rfl

@[simp] theorem defaulted_cons_self (h : key ∉ ms.map Prod.fst) :
    defaulted read default ((key, j) :: ms) key = read j := by
  rw [defaulted, member_cons_self h]

@[simp] theorem defaulted_cons_of_ne (h : other ≠ key) :
    defaulted read default ((other, j) :: ms) key = defaulted read default ms key := by
  rw [defaulted, member_cons_of_ne h, defaulted]

@[simp] theorem optional_nil : optional read [] key = some none := rfl

@[simp] theorem optional_cons_self (h : key ∉ ms.map Prod.fst) :
    optional read ((key, j) :: ms) key = option? read j :=
  defaulted_cons_self h

@[simp] theorem optional_cons_of_ne (h : other ≠ key) :
    optional read ((other, j) :: ms) key = optional read ms key :=
  defaulted_cons_of_ne h

/-- What is not there is read back if what is there is never written as `null`. -/
theorem option?_ofOption {write : α → Json} (h : ∀ a, read (write a) = some a)
    (hnull : ∀ a, write a ≠ .null) (a : Option α) : option? read (ofOption write a) = some a := by
  cases a with
  | none => rfl
  | some a =>
    have hread := h a
    have hne := hnull a
    show option? read (write a) = some (some a)
    cases hj : write a with
    | null => exact absurd hj hne
    | bool | whole | decimal | text | array | object =>
      rw [hj] at hread
      exact congrArg (Option.map some) hread

end Fields

/-! ## Words -/

@[simp] theorem nat?_ofNat (n : Nat) : nat? (.ofNat n) = some n := by
  simp only [nat?, ofNat, if_pos (Int.natCast_nonneg n), Int.toNat_natCast]

@[simp] theorem word64?_ofNat (w : UInt64) : word64? (.ofNat w.toNat) = some w := by
  have hword : Word.holdsNat 64 w.toNat = true := decide_eq_true w.toNat_lt
  rw [word64?, nat?_ofNat, Option.bind_some, if_pos hword, UInt64.ofNat_toNat]

end Json

/-- **A span is read back**, a single position by the end it does not have. -/
@[simp] theorem Span.ofJson?_json (s : Span) : Span.ofJson? s.json = some s := by
  obtain ⟨start, stop⟩ := s
  cases stop with
  | none => simp [json, ofJson?]
  | some stop =>
    have hstop : Json.option? Json.nat? (.ofNat stop) = some (some stop) :=
      congrArg (Option.map some) (Json.nat?_ofNat stop)
    simp [json, ofJson?, hstop]

end PixQuery
