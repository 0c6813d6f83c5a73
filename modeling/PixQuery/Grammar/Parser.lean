import PixQuery.Fault.Syntactic
import PixQuery.Grammar.Basic
import PixQuery.Grammar.Tree
import PixQuery.Report

/-!
# Parsing

The parser keeps a stack of trees, each with the state it led to, and the tokens that are left. One
`step` reads a token, applies a production, accepts, or meets an error. After an error the stack is
emptied, the token is skipped, and so are those behind it that cannot be read in the first state;
parsing then goes on from there. A tree is given only when there was no error.

In the program this is `parse_with_hook` of `SlrParser`; a `ParseHook` is told what each round does,
and here each step says it as a `ParseEvent`.
-/

namespace PixQuery

/-- What a step of the parser did (what a `ParseHook` is told). -/
inductive ParseEvent where
  | shift (state : Nat) (token : Token) (next : Nat)
  | reduce (state : Nat) (number : Nat) (production : Grammar.Production) (next : Nat)
  | fault (state : Nat) (fault : SyntaxFault)
  | accept
  deriving Repr, DecidableEq

/-- The fault that a step met. -/
def ParseEvent.fault? : ParseEvent → Option SyntaxFault
  | fault _ f => some f
  | shift .. | reduce .. | accept => none

namespace Parser

/-- A tree on the stack and the state behind it. -/
structure Frame where
  state : Nat
  tree : Tree
  deriving Repr, Inhabited

/-- The stack, its top first, and the tokens that are left. -/
structure Configuration where
  stack : List Frame
  rest : List Token
  deriving Repr, Inhabited

/-- The state on top of a stack. -/
def top (stack : List Frame) : Nat := (stack.head?.map Frame.state).getD 0

/-- The terminal of the next token, or the end of the sentence. -/
def lookahead (rest : List Token) : String := (rest.head?.map Token.terminal).getD Grammar.eof

/-- How parsing goes on after a step. -/
inductive Outcome where
  | go (next : Configuration)
  | stop (tree : Option Tree)
  deriving Repr, Inhabited

/-- A step: what it did, if anything can be told of it, and how parsing goes on. -/
structure Step where
  event : Option ParseEvent
  outcome : Outcome

/-- The fault of stopping in `state` before `rest`; the text ends at `stop` (`error_at`). -/
def faultAt (g : Grammar) (stop state : Nat) (rest : List Token) : SyntaxFault :=
  let expected := g.table.expected state
  match rest with
  | t :: _ => .unexpectedToken t.text expected t.range
  | [] => .unexpectedEnd expected stop

/-- Whether a token can be read in the first state. -/
def startsSentence (g : Grammar) (t : Token) : Bool :=
  match g.table.action 0 t.terminal with
  | some (.shift _) => true
  | _ => false

/-- What parsing goes on with after an error: the tokens from the first on that can begin anew, the
one that is wrong not counted. -/
def recover (g : Grammar) : List Token → List Token
  | [] => []
  | _ :: ts => ts.dropWhile fun t => !startsSentence g t

/-- The stretch of text of the children; a single position when there are none. -/
def childrenRange (position : Nat) (children : List Tree) : Span :=
  match children.head?, children.getLast? with
  | some first, some last => first.range.cover last.range
  | _, _ => .point position

/-- Read the next token. -/
def shift (state next : Nat) (c : Configuration) : Step :=
  match c.rest with
  | [] => ⟨none, .stop none⟩
  | t :: ts => ⟨some (.shift state t next), .go ⟨⟨next, .leaf t⟩ :: c.stack, ts⟩⟩

/-- Apply a production to the top of the stack. -/
def reduce (g : Grammar) (stop state number : Nat) (c : Configuration) : Step :=
  match g.production? number with
  | none => ⟨none, .stop none⟩
  | some p =>
    let arity := p.body.length
    let children := (c.stack.take arity).reverse.map Frame.tree
    let below := c.stack.drop arity
    match g.table.goto (top below) p.key with
    | none => ⟨some (.fault state (faultAt g stop state c.rest)), .stop none⟩
    | some next =>
      let position := (c.rest.head?.map fun t => t.range.start).getD stop
      let tree := Tree.node number p.key children (childrenRange position children)
      ⟨some (.reduce state number p next), .go ⟨⟨next, tree⟩ :: below, c.rest⟩⟩

/-- The tree of a sentence: the root of the stack. -/
def accepted (stack : List Frame) : Option Tree :=
  (stack.head?.map Frame.tree).bind fun t => if t.isNode then some t else none

/-- Report an error and begin anew behind it, where there is a place to begin. -/
def recovery (g : Grammar) (stop state : Nat) (c : Configuration) : Step :=
  ⟨some (.fault state (faultAt g stop state c.rest)),
    match recover g c.rest with
    | [] => .stop none
    | rest => .go ⟨[], rest⟩⟩

/-- One step; the text ends at `stop` (one round of `parse_with_hook`). -/
def step (g : Grammar) (stop : Nat) (c : Configuration) : Step :=
  let state := top c.stack
  match g.table.action state (lookahead c.rest) with
  | some (.shift next) => shift state next c
  | some (.reduce number) => reduce g stop state number c
  | some .accept => ⟨some .accept, .stop (accepted c.stack)⟩
  | none => recovery g stop state c

/-- At most `fuel` steps: what they did, and the tree at the end (the loop of `parse_with_hook`). -/
def run (g : Grammar) (stop : Nat) : (fuel : Nat) → Configuration → List ParseEvent × Option Tree
  | 0, _ => ([], none)
  | n + 1, c =>
    let s := step g stop c
    match s.outcome with
    | .stop tree => (s.event.toList, tree)
    | .go next =>
      let (events, tree) := run g stop n next
      (s.event.toList ++ events, tree)

/-- More steps than parsing takes when it comes to an end. Reading a token, applying a production of
two symbols or more and recovering use up the tokens and the stack; between them each nonterminal is
the key of a production of one symbol at most once, unless that goes on for ever. -/
def fuelFor (g : Grammar) (tokens : List Token) : Nat :=
  (2 * tokens.length + 2) * (g.productions.length + 2)

/-- Where a row of tokens ends. -/
def stopOf (tokens : List Token) : Nat := (tokens.getLast?.map Token.stop).getD 0

/-- All that the parser does with some tokens (`parse_with_hook`). -/
def trace (g : Grammar) (tokens : List Token) : List ParseEvent × Option Tree :=
  if tokens.isEmpty then ([], none)
  else run g (stopOf tokens) (fuelFor g tokens) ⟨[], tokens⟩

end Parser

namespace Grammar

/-- Parse tokens. No tokens have no tree and no error. -/
def parse (g : Grammar) (tokens : List Token) : Report Tree SyntaxFault :=
  let (events, tree) := Parser.trace g tokens
  (Findings.mk [] (events.filterMap ParseEvent.fault?)).finish tree

end Grammar

end PixQuery
