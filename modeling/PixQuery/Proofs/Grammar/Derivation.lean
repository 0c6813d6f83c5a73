import PixQuery.Grammar.Parser
import PixQuery.Proofs.Grammar.ItemSets

/-!
# Derivations

A derivation says how a symbol becomes a row of terminals: by which productions, nested how. It is
what a parse tree is without its tokens, so that there are derivations of sentences for which no
tokens exist. A parse tree is a derivation of its tokens (`Tree.IsDerivation`) when at every node
the key and the symbols of the children are those of the production with the number of the node.

Results:
* `Tree.isValid_derivation`: a parse tree that is a derivation of its tokens forgets to a valid
  derivation with the same leaves.
* `Tree.spanned_of_located`: in a tree over tokens in the order of a text, every range runs from the
  start of the first token to the end of the last.
-/

namespace PixQuery

open Grammar (Production Sym numbered? keyOf)

/-- A derivation tree over terminals. -/
inductive Derivation where
  | leaf (terminal : String)
  | node (production : Nat) (children : List Derivation)
  deriving Repr, Inhabited

namespace Derivation

/-- The symbol that is derived. -/
def symbol (ps : List Production) : Derivation → Sym
  | leaf t => .terminal t
  | node n _ => .nonterminal (keyOf ps n)

mutual

/-- The terminals of a derivation, from left to right. -/
def leaves : Derivation → List String
  | leaf t => [t]
  | node _ children => leavesOf children

/-- The terminals of derivations, from left to right. -/
def leavesOf : List Derivation → List String
  | [] => []
  | d :: ds => leaves d ++ leavesOf ds

end

mutual

/-- How many leaves and nodes a derivation has. -/
def size : Derivation → Nat
  | leaf _ => 1
  | node _ children => sizeOf children + 1

/-- How many leaves and nodes some derivations have. -/
def sizeOf : List Derivation → Nat
  | [] => 0
  | d :: ds => size d + sizeOf ds

end

mutual

/-- At every node the symbols of the children are the body of the production. -/
def IsValid (ps : List Production) : Derivation → Prop
  | leaf _ => True
  | node n children =>
    (∃ p, numbered? ps n = some p ∧ children.map (symbol ps) = p.body) ∧ AllValid ps children

/-- All of some derivations are valid. -/
def AllValid (ps : List Production) : List Derivation → Prop
  | [] => True
  | d :: ds => IsValid ps d ∧ AllValid ps ds

end

theorem leavesOf_append : ∀ ds es : List Derivation,
    leavesOf (ds ++ es) = leavesOf ds ++ leavesOf es
  | [], _ => rfl
  | d :: ds, es => by
    rw [List.cons_append, leavesOf, leavesOf, leavesOf_append ds es, List.append_assoc]

theorem allValid_append {ps : List Production} : ∀ {ds es : List Derivation}, AllValid ps ds →
    AllValid ps es → AllValid ps (ds ++ es)
  | [], _, _, hes => hes
  | _ :: _, _, hds, hes => ⟨hds.1, allValid_append hds.2 hes⟩

end Derivation

namespace Tree

/-- The symbol at the root. -/
def symbol : Tree → Sym
  | leaf t => .terminal t.terminal
  | node _ key _ _ => .nonterminal key

mutual

/-- What remains of a tree without its tokens. -/
def derivation : Tree → Derivation
  | leaf t => .leaf t.terminal
  | node n _ children _ => .node n (derivations children)

/-- What remains of trees without their tokens. -/
def derivations : List Tree → List Derivation
  | [] => []
  | t :: ts => derivation t :: derivations ts

end

mutual

/-- At every node the key and the symbols of the children are those of its production. -/
def IsDerivation (ps : List Production) : Tree → Prop
  | leaf _ => True
  | node n key children _ =>
    (∃ p, numbered? ps n = some p ∧ p.key = key ∧ children.map symbol = p.body) ∧
      AllDerivations ps children

/-- All of some trees are derivations of their tokens. -/
def AllDerivations (ps : List Production) : List Tree → Prop
  | [] => True
  | t :: ts => IsDerivation ps t ∧ AllDerivations ps ts

end

mutual

/-- Whether a tree is a derivation of its tokens is decided node by node. -/
def decideDerivation (ps : List Production) : (t : Tree) → Decidable (IsDerivation ps t)
  | leaf _ => .isTrue trivial
  | node n key children _ =>
    have := decideDerivations ps children
    inferInstanceAs (Decidable ((∃ p, numbered? ps n = some p ∧ p.key = key ∧
      children.map symbol = p.body) ∧ AllDerivations ps children))

/-- Whether all of some trees are derivations of their tokens. -/
def decideDerivations (ps : List Production) : (ts : List Tree) → Decidable (AllDerivations ps ts)
  | [] => .isTrue trivial
  | t :: ts =>
    have := decideDerivation ps t
    have := decideDerivations ps ts
    inferInstanceAs (Decidable (IsDerivation ps t ∧ AllDerivations ps ts))

end

instance (ps : List Production) (t : Tree) : Decidable (t.IsDerivation ps) := decideDerivation ps t

/-- A range runs from the start of the first of some tokens to the end of the last. -/
def Covers (range : Span) (tokens : List Token) : Prop :=
  ∃ first last, tokens.head? = some first ∧ tokens.getLast? = some last ∧
    range = .between first.range.start last.stop

mutual

/-- Every node covers its tokens. -/
def Spanned : Tree → Prop
  | leaf _ => True
  | node _ _ children range => Covers range (tokensOf children) ∧ AllSpanned children

/-- All of some trees are spanned. -/
def AllSpanned : List Tree → Prop
  | [] => True
  | t :: ts => Spanned t ∧ AllSpanned ts

end

mutual

/-- Every node has the range of its children. -/
def Located : Tree → Prop
  | leaf _ => True
  | node _ _ children range =>
    (children ≠ [] ∧ range = Parser.childrenRange 0 children) ∧ AllLocated children

/-- All of some trees are located. -/
def AllLocated : List Tree → Prop
  | [] => True
  | t :: ts => Located t ∧ AllLocated ts

end

/-! ## Lists of trees -/

theorem tokensOf_append : ∀ ts us : List Tree, tokensOf (ts ++ us) = tokensOf ts ++ tokensOf us
  | [], _ => rfl
  | t :: ts, us => by
    rw [List.cons_append, tokensOf, tokensOf, tokensOf_append ts us, List.append_assoc]

theorem derivations_eq_map : ∀ ts : List Tree, derivations ts = ts.map derivation
  | [] => rfl
  | t :: ts => by rw [derivations, derivations_eq_map ts, List.map_cons]

theorem allDerivations_iff {ps : List Production} : ∀ {ts : List Tree},
    AllDerivations ps ts ↔ ∀ t ∈ ts, IsDerivation ps t
  | [] => by simp [AllDerivations]
  | t :: ts => by simp [AllDerivations, allDerivations_iff]

theorem allLocated_iff : ∀ {ts : List Tree}, AllLocated ts ↔ ∀ t ∈ ts, Located t
  | [] => by simp [AllLocated]
  | t :: ts => by simp [AllLocated, allLocated_iff]

/-- The range of children does not depend on where nothing would stand. -/
theorem childrenRange_of_ne_nil {children : List Tree} (h : children ≠ []) (m n : Nat) :
    Parser.childrenRange m children = Parser.childrenRange n children := by
  obtain ⟨t, ts, rfl⟩ := List.exists_cons_of_ne_nil h
  simp only [Parser.childrenRange, List.head?_cons, List.getLast?_cons]

/-! ## Forgetting the tokens -/

variable {ps : List Production}

theorem symbol_derivation {t : Tree} (h : t.IsDerivation ps) :
    t.derivation.symbol ps = t.symbol := by
  cases t with
  | leaf t => rfl
  | node n key children range =>
    obtain ⟨⟨p, hp, rfl, _⟩, _⟩ := h
    simp only [derivation, Derivation.symbol, symbol, Grammar.keyOf_of_numbered hp]

mutual

theorem leaves_derivation : ∀ t : Tree, t.derivation.leaves = t.tokens.map Token.terminal
  | .leaf _ => rfl
  | .node _ _ children _ => leavesOf_derivations children

theorem leavesOf_derivations : ∀ ts : List Tree,
    Derivation.leavesOf (derivations ts) = (tokensOf ts).map Token.terminal
  | [] => rfl
  | t :: ts => by
    rw [derivations, Derivation.leavesOf, leaves_derivation t, leavesOf_derivations ts, tokensOf,
      List.map_append]

end

theorem symbols_derivations : ∀ {ts : List Tree}, AllDerivations ps ts →
    (derivations ts).map (Derivation.symbol ps) = ts.map symbol
  | [], _ => rfl
  | t :: ts, h => by
    rw [derivations, List.map_cons, List.map_cons, symbol_derivation h.1, symbols_derivations h.2]

mutual

theorem isValid_derivation : ∀ {t : Tree}, t.IsDerivation ps → t.derivation.IsValid ps
  | .leaf _, _ => trivial
  | .node _ _ _ _, ⟨⟨p, hp, _, hbody⟩, hchildren⟩ =>
    ⟨⟨p, hp, (symbols_derivations hchildren).trans hbody⟩, allValid_derivations hchildren⟩

theorem allValid_derivations : ∀ {ts : List Tree}, AllDerivations ps ts →
    Derivation.AllValid ps (derivations ts)
  | [], _ => trivial
  | _ :: _, h => ⟨isValid_derivation h.1, allValid_derivations h.2⟩

end

mutual

/-- A located tree is determined by its derivation and its tokens. -/
theorem eq_of_derivation : ∀ {t u : Tree}, t.IsDerivation ps → u.IsDerivation ps → t.Located →
    u.Located → t.derivation = u.derivation → t.tokens = u.tokens → t = u
  | .leaf a, .leaf b, _, _, _, _, _, htokens => by
    rw [List.cons.inj htokens |>.1]
  | .leaf _, .node _ _ _ _, _, _, _, _, hd, _ => by simp [derivation] at hd
  | .node _ _ _ _, .leaf _, _, _, _, _, hd, _ => by simp [derivation] at hd
  | .node m key ts range, .node n key' us range', ht, hu, hlt, hlu, hd, htokens => by
    simp only [derivation, Derivation.node.injEq] at hd
    obtain ⟨rfl, hds⟩ := hd
    obtain ⟨⟨p, hp, rfl, _⟩, hts⟩ := ht
    obtain ⟨⟨q, hq, rfl, _⟩, hus⟩ := hu
    obtain rfl := Option.some.inj (hp.symm.trans hq)
    obtain rfl := eqs_of_derivations hts hus hlt.2 hlu.2 hds htokens
    rw [hlt.1.2, hlu.1.2]

theorem eqs_of_derivations : ∀ {ts us : List Tree}, AllDerivations ps ts → AllDerivations ps us →
    AllLocated ts → AllLocated us → derivations ts = derivations us → tokensOf ts = tokensOf us →
    ts = us
  | [], [], _, _, _, _, _, _ => rfl
  | [], _ :: _, _, _, _, _, hd, _ => by simp [derivations] at hd
  | _ :: _, [], _, _, _, _, hd, _ => by simp [derivations] at hd
  | t :: ts, u :: us, ht, hu, hlt, hlu, hd, htokens => by
    simp only [derivations, List.cons.injEq] at hd
    have hlen : t.tokens.length = u.tokens.length := by
      rw [← List.length_map (f := Token.terminal), ← leaves_derivation, hd.1, leaves_derivation,
        List.length_map]
    obtain ⟨htok, htoks⟩ := List.append_inj htokens hlen
    rw [eq_of_derivation ht.1 hu.1 hlt.1 hlu.1 hd.1 htok,
      eqs_of_derivations ht.2 hu.2 hlt.2 hlu.2 hd.2 htoks]

end

end Tree

/-! ## Tokens in the order of a text -/

/-- No token ends before it starts, and none starts before those in front of it have ended. -/
structure InOrder (tokens : List Token) : Prop where
  start_le : ∀ t ∈ tokens, t.range.start ≤ t.stop
  apart : tokens.Pairwise fun a b => a.stop ≤ b.range.start

namespace InOrder

theorem of_append_left {ts us : List Token} (h : InOrder (ts ++ us)) : InOrder ts :=
  ⟨fun t ht => h.start_le t (List.mem_append_left _ ht), (List.pairwise_append.mp h.apart).1⟩

theorem of_append_right {ts us : List Token} (h : InOrder (ts ++ us)) : InOrder us :=
  ⟨fun t ht => h.start_le t (List.mem_append_right _ ht), (List.pairwise_append.mp h.apart).2.1⟩

/-- The start of the first token and the end of the last bound those of all. -/
theorem bounds {first last : Token} {tokens : List Token} (h : InOrder tokens)
    (hfirst : tokens.head? = some first) (hlast : tokens.getLast? = some last) :
    ∀ t ∈ tokens, first.range.start ≤ t.range.start ∧ t.stop ≤ last.stop := by
  intro t ht
  constructor
  · obtain ⟨ts, rfl⟩ := List.head?_eq_some_iff.mp hfirst
    rcases List.mem_cons.mp ht with rfl | hts
    · exact Nat.le_refl _
    · exact Nat.le_trans (h.start_le _ List.mem_cons_self)
        ((List.pairwise_cons.mp h.apart).1 t hts)
  · obtain ⟨ts, rfl⟩ := List.getLast?_eq_some_iff.mp hlast
    rcases List.mem_append.mp ht with hts | hts
    · exact Nat.le_trans ((List.pairwise_append.mp h.apart).2.2 t hts last (by simp))
        (h.start_le last (by simp))
    · exact Nat.le_of_eq (congrArg Token.stop (List.mem_singleton.mp hts))

end InOrder

namespace Tree

/-- A tree covers its tokens in the sense of its ends. -/
def Ends (t : Tree) : Prop :=
  ∃ first last, t.tokens.head? = some first ∧ t.tokens.getLast? = some last ∧
    t.range.start = first.range.start ∧ t.range.stopOrNext = last.stop

theorem head?_tokensOf {t : Tree} {ts : List Tree} {first : Token}
    (h : t.tokens.head? = some first) : (tokensOf (t :: ts)).head? = some first := by
  rw [tokensOf, List.head?_append, h, Option.some_or]

theorem getLast?_tokensOf {ts : List Tree} {t : Tree} {last : Token}
    (ht : ts.getLast? = some t) (h : t.tokens.getLast? = some last) :
    (tokensOf ts).getLast? = some last := by
  obtain ⟨us, rfl⟩ := List.getLast?_eq_some_iff.mp ht
  rw [tokensOf_append, tokensOf, tokensOf, List.append_nil, List.getLast?_append, h, Option.some_or]

/-- The range of the children of a node covers their tokens when each child covers its own. -/
theorem covers_childrenRange {ts : List Tree} (hne : ts ≠ []) (horder : InOrder (tokensOf ts))
    (hends : ∀ t ∈ ts, Ends t) : Covers (Parser.childrenRange 0 ts) (tokensOf ts) := by
  obtain ⟨t, us, rfl⟩ := List.exists_cons_of_ne_nil hne
  obtain ⟨u, hu⟩ : ∃ u, (t :: us).getLast? = some u := ⟨_, List.getLast?_cons⟩
  obtain ⟨first, last, hfirst, hlast, hstart, hstop⟩ := hends t List.mem_cons_self
  obtain ⟨first', last', hfirst', hlast', hstart', hstop'⟩ := hends u (List.mem_of_getLast? hu)
  have hhead : (tokensOf (t :: us)).head? = some first := head?_tokensOf hfirst
  have hend := getLast?_tokensOf hu hlast'
  have hbounds := horder.bounds hhead hend
  have hmem : ∀ {v w}, v ∈ t :: us → w ∈ v.tokens → w ∈ tokensOf (t :: us) := by
    intro v w hv hw
    obtain ⟨xs, ys, heq⟩ := List.append_of_mem hv
    rw [heq, tokensOf_append, tokensOf]
    simp [hw]
  have h1 := (hbounds first' (hmem (List.mem_of_getLast? hu) (List.mem_of_head? hfirst'))).1
  have h2 := (hbounds last (hmem List.mem_cons_self (List.mem_of_getLast? hlast))).2
  refine ⟨first, last', hhead, hend, ?_⟩
  simp only [Parser.childrenRange, List.head?_cons, hu, Span.cover, hstart, hstop, hstart', hstop']
  rw [Nat.min_eq_left h1, Nat.max_eq_right h2]

mutual

theorem spanned_and_ends : ∀ {t : Tree}, t.Located → InOrder t.tokens → t.Spanned ∧ t.Ends
  | .leaf t, _, _ => ⟨trivial, t, t, rfl, rfl, rfl, rfl⟩
  | .node _ _ children _, h, horder => by
    obtain ⟨⟨hne, rfl⟩, hchildren⟩ := h
    have hall := allSpanned_and_ends hchildren horder
    have hcovers := covers_childrenRange hne horder hall.2
    refine ⟨⟨hcovers, hall.1⟩, ?_⟩
    obtain ⟨first, last, hfirst, hlast, hrange⟩ := hcovers
    exact ⟨first, last, hfirst, hlast, by rw [range, hrange]; rfl, by rw [range, hrange]; rfl⟩

theorem allSpanned_and_ends : ∀ {ts : List Tree}, AllLocated ts → InOrder (tokensOf ts) →
    AllSpanned ts ∧ ∀ t ∈ ts, Ends t
  | [], _, _ => ⟨trivial, fun _ h => absurd h List.not_mem_nil⟩
  | t :: ts, h, horder => by
    have ht := spanned_and_ends h.1 horder.of_append_left
    have hts := allSpanned_and_ends h.2 horder.of_append_right
    refine ⟨⟨ht.1, hts.1⟩, fun u hu => ?_⟩
    rcases List.mem_cons.mp hu with rfl | hu
    · exact ht.2
    · exact hts.2 u hu

end

/-- **Every node covers its tokens** in a located tree over tokens in the order of a text. -/
theorem spanned_of_located {t : Tree} (h : t.Located) (horder : InOrder t.tokens) : t.Spanned :=
  (spanned_and_ends h horder).1

end Tree

end PixQuery
