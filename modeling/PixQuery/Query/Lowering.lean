import PixQuery.Fault.Semantic
import PixQuery.Grammar.Tree
import PixQuery.Query.Basic

/-!
# From parse trees to queries

Each function reads one kind of node. What it meets is compared with the productions of the query
language, so a tree of another grammar is refused with the node that has an unknown structure.

In the program `sequence_items` finds the items and `sequence_item` reads one of them.
-/

namespace PixQuery.Query

/-- A part of a query, or the fault of a tree that is none. -/
abbrev Lowered := Except SemanticFault

/-- The fault of a node whose children are not those of a known production. -/
def unsupported (node : Tree) : SemanticFault :=
  match node with
  | .leaf t => ⟨.unsupportedStructure t.terminal, t.range⟩
  | .node _ key children range =>
    ⟨.unsupportedStructure (key ++ " -> " ++ " ".intercalate (children.map Tree.rootName)), range⟩

/-- Whether a tree is a node with this key. -/
def isKey (key : String) : Tree → Bool
  | .leaf _ => false
  | .node _ k _ _ => k == key

/-- The children of a node. -/
def childrenOf : Tree → List Tree
  | .leaf _ => []
  | .node _ _ children _ => children

/-- A child that has to be a node with a key; otherwise its parent is at fault. -/
def expect (key : String) (parent child : Tree) : Lowered Tree :=
  if isKey key child then .ok child else .error (unsupported parent)

/-- The symbol of a leaf. -/
def symbolOf? : Tree → Option Symbol
  | .leaf t => t.symbol?
  | .node .. => none

/-- The symbol of the only child of a node. -/
def onlySymbol? (node : Tree) : Option Symbol :=
  match childrenOf node with
  | [child] => symbolOf? child
  | _ => none

/-- Put the members of a list in front of `done`, in the order of the text (the loop of
`left_list`). A list is a node whose only child is its only member, or one that begins with the list
of all members but the last. -/
def leftListOnto (key : String) (done : List Tree) : Tree → Lowered (List Tree)
  | .leaf t => .error (unsupported (.leaf t))
  | .node p k children range =>
    let fault := unsupported (.node p k children range)
    if k == key then
      match children with
      | [only] => .ok (only :: done)
      | [rest, last] =>
        if isKey key rest then leftListOnto key (last :: done) rest else .error fault
      | [rest, _, last] =>
        if isKey key rest then leftListOnto key (last :: done) rest else .error fault
      | _ => .error fault
    else .error fault

/-- The members of a list node, in the order of the text. -/
def leftList (key : String) (node : Tree) : Lowered (List Tree) := leftListOnto key [] node

/-- A string of a path. -/
def readPart (node child : Tree) : Lowered Part :=
  match child with
  | .leaf ⟨.string value kind, range⟩ => .ok ⟨value, kind, range⟩
  | _ => .error (unsupported node)

/-- A path (`string`). -/
def readPath (node : Tree) : Lowered Path := do
  let members ← leftList "STRING" node
  match ← members.mapM (readPart node) with
  | first :: others => return ⟨first, others⟩
  | [] => .error (unsupported node)

/-- A path that has to stand at a child. -/
def readPathAt (parent child : Tree) : Lowered Path := do readPath (← expect "STRING" parent child)

/-- What is written before a value. -/
def readValuePrefix (node : Tree) : Lowered (Option Direction × Bool) :=
  match (childrenOf node).map symbolOf? with
  | [some .plus] => .ok (some .ascending, false)
  | [some .minus] => .ok (some .descending, false)
  | [some .caret] => .ok (none, true)
  | [some .plus, some .caret] => .ok (some .ascending, true)
  | [some .minus, some .caret] => .ok (some .descending, true)
  | _ => .error (unsupported node)

/-- A value (`value`). -/
def readValue (node : Tree) : Lowered Value :=
  match childrenOf node with
  | [path] => do return ⟨none, false, ← readPathAt node path, node.range⟩
  | [before, path] => do
    let (direction, source) ← readValuePrefix (← expect "VALUE_PREFIX" node before)
    return ⟨direction, source, ← readPathAt node path, node.range⟩
  | _ => .error (unsupported node)

/-- The paths of a collection (`collection`). -/
def readCollection (node : Tree) : Lowered (List Path) :=
  match childrenOf node with
  | [_, _] => .ok []
  | [_, items, _] => do
    let list ← expect "COLLECTION_ITEM" node items
    (← leftList "COLLECTION_ITEM" list).mapM (readPathAt list)
  | _ => .error (unsupported node)

/-- Whether a bracket includes its end; `included` and `excluded` are its two shapes. -/
def readBracket (key : String) (included excluded : Symbol) (parent child : Tree) :
    Lowered Bool := do
  let bracket ← expect key parent child
  match (childrenOf bracket).head?.bind symbolOf? with
  | some s =>
    if s = included then return true
    else if s = excluded then return false
    else .error (unsupported parent)
  | none => .error (unsupported parent)

/-- A range (`range`). -/
def readRange (node : Tree) : Lowered RangeLiteral :=
  match childrenOf node with
  | [first, _, last] => do
    return ⟨← readPathAt node first, ← readPathAt node last, none⟩
  | [opening, first, _, last, closing] => do
    let includeBegin ← readBracket "RANGE_BEGIN" .lBracket .lParen node opening
    let includeEnd ← readBracket "RANGE_END" .rBracket .rParen node closing
    return ⟨← readPathAt node first, ← readPathAt node last, some ⟨includeBegin, includeEnd⟩⟩
  | _ => .error (unsupported node)

/-- What a relation relates to (`predicate`). -/
def readPredicate (node : Tree) : Lowered Predicate :=
  match childrenOf node with
  | [inner] =>
    if isKey "VALUE_LIST" inner then do
      let members ← leftList "VALUE_LIST" inner
      return .values (← members.mapM fun m => do readValue (← expect "VALUE" inner m))
    else if isKey "COLLECTION" inner then do return .collection (← readCollection inner)
    else if isKey "RANGE" inner then do return .range (← readRange inner)
    else .error (unsupported node)
  | _ => .error (unsupported node)

/-- The symbol of a binary relation. -/
def readFamily (node : Tree) : Lowered Family :=
  match onlySymbol? node with
  | some .colon => .ok .equal
  | some .gt => .ok .gt
  | some .gte => .ok .gte
  | some .lt => .ok .lt
  | some .lte => .ok .lte
  | some .tilde => .ok .similar
  | _ => .error (unsupported node)

/-- The symbol of a unary relation (`unary`). -/
def readUnary (node : Tree) : Lowered Direction :=
  match onlySymbol? node with
  | some .tildePlus => .ok .ascending
  | some .tildeMinus => .ok .descending
  | _ => .error (unsupported node)

/-- The subject of a phrase. -/
def readSubject (node child : Tree) : Lowered Path := do
  let subject ← expect "SUBJECT" node child
  match childrenOf subject with
  | [s] => readPathAt subject s
  | _ => .error (unsupported subject)

/-- A phrase (`sfp`). -/
def readPhrase (node : Tree) : Lowered Phrase :=
  match childrenOf node with
  | [subject] => do return ⟨← readSubject node subject, none, node.range⟩
  | [subject, unary] => do
    let subject ← readSubject node subject
    let symbol ← expect "UNARY_FAMILY" node unary
    return ⟨subject, some (.unary (← readUnary symbol) symbol.range), node.range⟩
  | [subject, family, predicative] => do
    let subject ← readSubject node subject
    let symbol ← expect "FAMILY" node family
    let family ← readFamily symbol
    let predicative ← expect "PREDICATIVE" node predicative
    let predicate ← readPredicate predicative
    let range := symbol.range.cover predicative.range
    return ⟨subject, some (.binary family predicate range), node.range⟩
  | _ => .error (unsupported node)

/-- The mark before an element. -/
def readMark (node : Tree) : Lowered Mark :=
  match onlySymbol? node with
  | some .atSign => .ok .author
  | some .hash => .ok .topic
  | some .dollar => .ok .tag
  | _ => .error (unsupported node)

/-- The phrases of an element. -/
def readPhrases (node items : Tree) : Lowered (List Phrase) := do
  let list ← expect "ELEMENT_ITEM" node items
  (← leftList "ELEMENT_ITEM" list).mapM fun m => do readPhrase (← expect "SFP" list m)

/-- An element (`element`). -/
def readElement (node : Tree) : Lowered Element :=
  match childrenOf node with
  | [items] => do return ⟨none, ← readPhrases node items, node.range⟩
  | [mark, items] => do
    let mark ← readMark (← expect "ELEMENT_PREFIX" node mark)
    return ⟨some mark, ← readPhrases node items, node.range⟩
  | _ => .error (unsupported node)

/-- The exclusion and source marks of an item. -/
def readMarks (node : Tree) (marks : List Tree) : Lowered (Bool × Bool) :=
  match marks.map symbolOf? with
  | [] => .ok (false, false)
  | [some .caret] => .ok (false, true)
  | [some .minus] => .ok (true, false)
  | [some .minus, some .caret] => .ok (true, true)
  | _ => .error (unsupported node)

/-- An item of a query (`sequence_item`). -/
def readItem (node : Tree) : Lowered Item :=
  match (childrenOf node).getLast? with
  | none => .error (unsupported node)
  | some last => do
    let element ← readElement (← expect "ELEMENT" node last)
    let (exclude, source) ← readMarks node (childrenOf node).dropLast
    return ⟨exclude, source, element, node.range⟩

/-- The nodes of the items of a query, in the order of the text (`sequence_items`). Each is read on
its own, so that a bad item does not hide its neighbours. -/
def itemNodes (root : Tree) : Lowered (List Tree) := do
  (← leftList "SEQUENCE" root).mapM (expect "SEQUENCE_ITEM" root)

end PixQuery.Query
