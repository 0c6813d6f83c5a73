import PixQuery.Field.Names
import PixQuery.Forecast.Basic
import PixQuery.Metadata.Lookup
import PixQuery.Token.Basic
import PixQuery.Text.Lowercase
import PixQuery.Value.Cast

/-!
# Where a cursor stands in a row of tokens

A forecast looks at the tokens alone, since a query that is still being typed often has no tree. The
string under the cursor is found together with the tokens before it (`Place`), and these are read
backwards, the nearest first, until they tell which kind of name is expected (`Place.context?`).

In the program `target` finds the string, by its number, and `context` walks back from there; here
the tokens before the string are a list, the nearest first.
-/

namespace PixQuery

/-- A string token, and the tokens before it, the nearest first. -/
structure Place where
  value : String
  kind : StringKind
  range : Span
  before : List Token
  deriving Repr, DecidableEq, Inhabited

namespace Place

/-! ## The string under the cursor -/

/-- The places of all strings among the tokens, which have `before` in front of them. -/
def allFrom (before : List Token) : List Token → List Place
  | [] => []
  | t :: ts =>
    match t.string? with
    | some (value, kind) => ⟨value, kind, t.range, before⟩ :: allFrom (t :: before) ts
    | none => allFrom (t :: before) ts

/-- The place of the string that the cursor is in or at an edge of (`target`). At the edge between
two strings it is the one that ends there. -/
def at? (tokens : List Token) (cursor : Nat) : Option Place :=
  let touching := (allFrom [] tokens).filter fun p => p.range.touches cursor
  (touching.find? fun p => p.range.start < cursor).or touching.head?

/-! ## Reading backwards -/

/-- The parts of a path in front of its last point, the nearest first, and what stands before the
path (`path_start`). -/
def splitPath : List Token → List (String × StringKind) × List Token
  | ⟨.symbol .dot, _⟩ :: ⟨.string value kind, _⟩ :: before =>
    let (parts, rest) := splitPath before
    ((value, kind) :: parts, rest)
  | before => ([], before)

/-- The parts of the path in front of the string, as the lookup reads them. -/
def address (p : Place) : List NamePart :=
  (splitPath p.before).1.reverse.map fun (value, kind) =>
    ⟨value, kind.isExact, kind == .word && Value.isPattern value⟩

/-- Drop the marks `+`, `-` and `^`, and say whether a source mark was among them (the prefixes in
`context`). -/
def dropMarks : List Token → Bool × List Token
  | ⟨.symbol .caret, _⟩ :: before => (true, (dropMarks before).2)
  | ⟨.symbol .plus, _⟩ :: before => dropMarks before
  | ⟨.symbol .minus, _⟩ :: before => dropMarks before
  | before => (false, before)

/-- Whether the symbol joins a field to its values (`is_family`). -/
def isRelation : Symbol → Bool
  | .colon | .gt | .gte | .lt | .lte | .tilde => true
  | _ => false

/-- Whether the symbol may stand between a relation and a value of it. -/
def isInsideValues : Symbol → Bool
  | .comma | .lBrace | .lBracket | .lParen | .dot | .dotDot | .plus | .minus | .caret => true
  | _ => false

/-- What stands before the nearest relation, if there are only values on the way to it (the loop of
`field_context`). -/
def beforeRelation? : List Token → Option (List Token)
  | [] => none
  | t :: before =>
    match t.symbol? with
    | none => beforeRelation? before
    | some s =>
      if isRelation s then some before
      else if isInsideValues s then beforeRelation? before
      else none

/-- The symbol of the nearest token (`symbol_at`). -/
def nearestSymbol? (before : List Token) : Option Symbol := before.head?.bind Token.symbol?

/-- The field that a relation belongs to: a bare word that is no part of a path, and whether it has
the source mark (the subject in `field_context`). -/
def subject? : List Token → Option (String × Bool)
  | ⟨.string word .word, _⟩ :: before =>
    match nearestSymbol? before with
    | some .dot => none
    | some .caret => some (word, true)
    | _ => some (word, false)
  | _ => none

/-- What is expected among the values of a field (the end of `field_context`). -/
def contextOfField? (word : String) (source valueSource : Bool) : Option ForecastContext :=
  if !source && sortFieldName.isTyped word false then some (.orderKey valueSource)
  else
    match AliasEntry.find? Kind.names word source with
    | some kind => some (.metadata kind)
    | none =>
      match AliasEntry.find? Field.names word source with
      | some field => if field.type = .composition then some (.flagName field) else none
      | none => none

/-- What is expected among values, which begin right before the tokens (`field_context`). -/
def contextOfValues? (before : List Token) (valueSource : Bool) : Option ForecastContext := do
  let (word, source) ← subject? (← beforeRelation? before)
  contextOfField? word source valueSource

/-- The kind that a mark before names stands for. -/
def markedKind? : Symbol → Option Kind
  | .atSign => some .author
  | .hash => some .topic
  | .dollar => some .tag
  | _ => none

/-- What is expected behind a bar: a name of the kind that the mark of the whole item stands for
(`union_context`). -/
def contextOfUnion : List Token → ForecastContext
  | [] => .bare
  | t :: before =>
    match t.symbol? with
    | none | some .pipe | some .slash | some .dot => contextOfUnion before
    | some .caret => .metadata .sourceTag
    | some s => ((markedKind? s).map .metadata).getD .bare

/-- Whether the symbol stands right before a value of a field. -/
def opensValue : Symbol → Bool
  | .comma | .lBrace | .lBracket | .lParen => true
  | s => isRelation s

/-- Which kind of name is expected for the string. Some strings, such as a number, are of no
kind. -/
def context? (p : Place) : Option ForecastContext :=
  let (source, before) := dropMarks (splitPath p.before).2
  let unmarked : ForecastContext := if source then .metadata .sourceTag else .bare
  match nearestSymbol? before with
  | none => some unmarked
  | some s =>
    if opensValue s then contextOfValues? before source
    else
      match markedKind? s with
      | some kind => some (.metadata kind)
      | none =>
        if (s = .pipe ∨ s = .slash) ∧ !source then some (contextOfUnion before.tail)
        else some unmarked

/-! ## What is typed -/

/-- What has been typed of the string, in lower case: of a bare word only what is left of the
cursor. -/
def typed (p : Place) (cursor : Nat) : List Char :=
  Text.lower
    (match p.kind with
    | .word => p.value.toList.take (cursor - p.range.start)
    | .apostrophe | .doubleQuotes | .backticks => p.value.toList)

end Place

end PixQuery
