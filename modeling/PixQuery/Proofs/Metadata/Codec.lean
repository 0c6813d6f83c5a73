import PixQuery.Metadata.Codec
import PixQuery.Proofs.Json.Records
import PixQuery.Proofs.Json.RoundTrip
import PixQuery.Proofs.Value.FlagText

/-!
# Entities are read back from documents

An entity is written with its kind, a node with its address only when it has one. Other names, flags
and a parent may be left out where they are read, but they are always written.

Results:
* `Flags.ofJson?_json`, `Node.ofMembers?_cons`: the parts of an entity are read back.
* `Entity.ofJson?_json`: an entity is read back from its document.
* `Entity.fits_json`: the document is one that a text can hold.
-/

namespace PixQuery

open Json

@[simp] theorem Flags.ofJson?_json {family : FlagFamily} (f : Flags family) :
    Flags.ofJson? f.json = some f :=
  Flags.ofText?_text f

@[simp] theorem Kind.ofJson?_name (kind : Kind) : Kind.ofJson? (.text kind.name) = some kind := by
  cases kind <;> rfl

theorem word64?_parent (parent : Option UInt64) :
    option? word64? (ofOption (fun p => .ofNat p.toNat) parent) = some parent :=
  option?_ofOption word64?_ofNat (fun _ h => by cases h) parent

/-- A node is read from its members, whatever stands before them under another key. -/
theorem Node.ofMembers?_cons {family : FlagFamily} (n : Node family) (kind : Json) :
    Node.ofMembers? family (("kind", kind) :: n.members) = some n := by
  obtain ⟨id, name, otherNames, parent, flags, address⟩ := n
  cases family <;> cases address <;>
    simp [Node.ofMembers?, Node.members, readTexts?, flagsKey, word64?_parent]

theorem Author.ofMembers?_cons (a : Author) (kind : Json) :
    Author.ofMembers? (("kind", kind) :: a.members) = some a := by
  simp [Author.ofMembers?, Author.members, readTexts?]

theorem SourceTag.ofMembers?_cons (s : SourceTag) (kind : Json) :
    SourceTag.ofMembers? (("kind", kind) :: s.members) = some s := by
  simp [SourceTag.ofMembers?, SourceTag.members, readTexts?]

/-- The keys under which something of an entity may stand, its kind apart. -/
def Entity.keys : List String :=
  ["id", "site", "name", "other_names", "parent", "flags", "target", "address"]

theorem Entity.mem_keys {e : Entity} {key : String} (h : key ∈ e.members.map Prod.fst) :
    key ∈ keys := by
  have hnode : ∀ {family : FlagFamily} (n : Node family), n.members.map Prod.fst ⊆ keys := by
    intro family n
    obtain ⟨id, name, otherNames, parent, flags, address⟩ := n
    cases family <;> cases address <;> simp [Node.members, flagsKey, keys]
  cases e with
  | tag t => exact hnode t h
  | topic t => exact hnode t h
  | author a =>
    have hsub : a.members.map Prod.fst ⊆ keys := by simp [Author.members, keys]
    exact hsub h
  | sourceTag s =>
    have hsub : s.members.map Prod.fst ⊆ keys := by simp [SourceTag.members, keys]
    exact hsub h

/-- **An entity is read back from its document.** -/
@[simp] theorem Entity.ofJson?_json (e : Entity) : Entity.ofJson? e.json = some e := by
  have hkind : required Kind.ofJson? (("kind", .text e.kind.name) :: e.members) "kind" =
      some e.kind := by
    have hkey : "kind" ∉ e.members.map Prod.fst := fun h => absurd (mem_keys h) (by decide)
    rw [required_cons_self hkey, Kind.ofJson?_name]
  simp only [ofJson?, json, members?_object, Option.bind_eq_bind, Option.bind_some, hkind]
  cases e with
  | tag t => exact congrArg (Option.map tag) (t.ofMembers?_cons _)
  | topic t => exact congrArg (Option.map topic) (t.ofMembers?_cons _)
  | author a => exact congrArg (Option.map author) (a.ofMembers?_cons _)
  | sourceTag s => exact congrArg (Option.map sourceTag) (s.ofMembers?_cons _)

/-! ## Levels and numbers -/

@[simp] theorem Flags.fits_json {family : FlagFamily} {n : Nat} (f : Flags family) :
    Fits n f.json := .text _

/-- The document of an entity has two levels, and its numbers have 64 bits. -/
@[simp] theorem Entity.fits_json {n : Nat} (e : Entity) : Fits (n + 2) e.json := by
  have hnode : ∀ {family : FlagFamily} (t : Node family), ∀ m ∈ t.members, Fits (n + 1) m.2 := by
    intro family t
    obtain ⟨id, name, otherNames, parent, flags, address⟩ := t
    cases parent <;> cases address <;> simp [Node.members, Json.ofOption]
  refine fits_object_iff.mpr (List.forall_mem_cons.mpr ⟨.text _, ?_⟩)
  cases e with
  | tag t => exact hnode t
  | topic t => exact hnode t
  | author a => simp [members, Author.members]
  | sourceTag s => simp [members, SourceTag.members]

end PixQuery
