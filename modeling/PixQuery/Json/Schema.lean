import PixQuery.Json.Number

/-!
# Schemas of documents

A schema says which documents have a certain form. `Schema.accepts` decides whether a document does.
-/

namespace PixQuery

/-- A form of documents. -/
inductive Schema where
  | boolean
  | text
  /-- One of some texts. -/
  | word (words : List String)
  | null
  | integer
  /-- An integer that is not less than zero. -/
  | natural
  /-- An array with at least `least` items, all of one form. -/
  | array (least : Nat) (items : Schema)
  /-- An object with members that are there and members that may be; a closed one has no others. -/
  | object (closed : Bool) (required optional : List (String × Schema))
  /-- Just one of some forms. -/
  | oneOf (schemas : List Schema)
  deriving Repr, Inhabited

namespace Schema

/-- Whether a key is described by a list of members. -/
def describes (described : List (String × Schema)) (key : String) : Bool :=
  described.any fun d => d.1 == key

mutual

/-- Whether the document has the form. -/
def accepts : Schema → Json → Bool
  | boolean, j => j.bool?.isSome
  | text, j => j.text?.isSome
  | word words, j => j.text?.any words.contains
  | null, j =>
    match j with
    | .null => true
    | _ => false
  | integer, j => j.isInteger
  | natural, j => j.isNatural
  | array least items, j =>
    match j with
    | .array xs => least ≤ xs.length && xs.all fun x => items.accepts x
    | _ => false
  | object closed required optional, j =>
    match j with
    | .object ms =>
      acceptsMembers true required ms && acceptsMembers false optional ms &&
        (!closed || ms.all fun m => describes required m.1 || describes optional m.1)
    | _ => false
  | oneOf schemas, j => countAccepting schemas j == 1

/-- Whether each described member has its form; it may be missing unless it is `needed`. -/
def acceptsMembers (needed : Bool) : List (String × Schema) → List (String × Json) → Bool
  | [], _ => true
  | (key, schema) :: described, ms =>
    (match Json.member ms key with
      | .present j => schema.accepts j
      | .absent => !needed
      | .repeated => false) &&
      acceptsMembers needed described ms

/-- How many of the forms the document has. -/
def countAccepting : List Schema → Json → Nat
  | [], _ => 0
  | schema :: schemas, j => (if schema.accepts j then 1 else 0) + countAccepting schemas j

end

end Schema

end PixQuery
