import PixQuery.Token.Basic

/-!
# Parse trees

A node of a parse tree is a production that was applied; its leaves are tokens. Each node carries
the stretch of text that it covers.

In the program a node is a `ParseNode` and its children are each a `ParseChild`.
-/

namespace PixQuery

/-- A parse tree. -/
inductive Tree where
  | leaf (token : Token)
  | node (production : Nat) (key : String) (children : List Tree) (range : Span)
  deriving Repr, Inhabited

namespace Tree

/-- The stretch of text that the tree covers. -/
def range : Tree → Span
  | leaf t => t.range
  | node _ _ _ range => range

/-- The name of the symbol at the root: a terminal or a key. -/
def rootName : Tree → String
  | leaf t => t.terminal
  | node _ key _ _ => key

/-- Whether the root is a production. -/
def isNode : Tree → Bool
  | leaf _ => false
  | node .. => true

mutual

/-- The tokens of a tree, from left to right. -/
def tokens : Tree → List Token
  | leaf t => [t]
  | node _ _ children _ => tokensOf children

/-- The tokens of trees, from left to right. -/
def tokensOf : List Tree → List Token
  | [] => []
  | t :: ts => tokens t ++ tokensOf ts

end

mutual

/-- How many productions were applied. -/
def nodeCount : Tree → Nat
  | leaf _ => 0
  | node _ _ children _ => nodeCountOf children + 1

/-- How many productions were applied in some trees. -/
def nodeCountOf : List Tree → Nat
  | [] => 0
  | t :: ts => nodeCount t + nodeCountOf ts

end

mutual

/-- How many levels the tree has, its leaves being one. -/
def depth : Tree → Nat
  | leaf _ => 1
  | node _ _ children _ => depthOf children + 1

/-- How many levels the deepest of some trees has. -/
def depthOf : List Tree → Nat
  | [] => 0
  | t :: ts => max (depth t) (depthOf ts)

end

/-- A line of an outline. -/
def outlineLine (level : Nat) (name : String) (range : Span) : String :=
  String.ofList (List.replicate (2 * level) ' ') ++ name ++ " [" ++ range.text ++ "]\n"

mutual

/-- The lines of an outline, `level` levels in (`write_outline`). -/
def outlineAt (level : Nat) : Tree → String
  | leaf t => outlineLine level t.text t.range
  | node _ key children range => outlineLine level key range ++ outlineOf (level + 1) children

/-- The lines of the outlines of some trees. -/
def outlineOf (level : Nat) : List Tree → String
  | [] => ""
  | t :: ts => outlineAt level t ++ outlineOf level ts

end

/-- The tree with one node or token to a line, each level two spaces further in. -/
def outline (t : Tree) : String := outlineAt 0 t

end Tree

end PixQuery
