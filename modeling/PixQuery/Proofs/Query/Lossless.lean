import PixQuery.Proofs.Grammar.FirstFault
import PixQuery.Proofs.Query.Reading

/-!
# Reading a query loses nothing

A derivation of any nonterminal of the query language is read without a fault, and what is read is
written as the tokens of the derivation: only the ampersands between items are gone, and the slashes
between phrases are bars. There is one lemma a nonterminal, which goes through the productions of
its key; the five kinds of lists share one.

Results:
* `exists_members`: the members of a list are read in order, and written as the list.
* `exists_readItem`: an item is read, and written as its tokens.
* `lossless`: so is every query that the grammar accepts.
-/

namespace PixQuery

/-- The symbol that a text is. -/
def Symbol.ofText? (s : String) : Option Symbol :=
  match s.toList with
  | [c] => ofChar? c
  | [c, d] => (ofChar? c).bind (extend? · d)
  | _ => none

theorem Symbol.ofText?_spelling (u : Symbol) : ofText? u.spelling = some u := by
  cases u <;> rfl

theorem Symbol.spelling_injective : Function.Injective spelling := fun u v h =>
  Option.some.inj ((ofText?_spelling u).symm.trans (h ▸ ofText?_spelling v))

namespace Query

open Grammar (Sym numbered?)
open Script (lexemes sym separated)
open Understood (ok_bind)

/-! ## What tokens say -/

/-- Lexemes without ampersands, and with bars for slashes. -/
def plain (ls : List Lexeme) : List Lexeme :=
  (ls.filter (· ≠ .symbol .amp)).map fun l => if l = .symbol .slash then .symbol .pipe else l

/-- The string that a token is, with its place. -/
def partOf? : Token → Option Part
  | ⟨.string value kind, range⟩ => some ⟨value, kind, range⟩
  | ⟨.symbol _, _⟩ => none

/-- The strings of a predicate. -/
def Predicate.parts : Predicate → List Part
  | values vs => vs.flatMap fun v => v.path.parts
  | collection ps => ps.flatMap Path.parts
  | range r => r.first.parts ++ r.last.parts

/-- The strings of a relation. -/
def Relation.parts : Relation → List Part
  | binary _ predicate _ => predicate.parts
  | unary .. => []

/-- The strings of a phrase. -/
def Phrase.parts (p : Phrase) : List Part :=
  p.subject.parts ++ (p.relation.map Relation.parts).getD []

/-- The strings of an item. -/
def Item.parts (i : Item) : List Part := i.element.phrases.flatMap Phrase.parts

/-- A part of a query with this script and these strings is written as the tokens. -/
structure WrittenAs (tokens : List Token) (s : Script) (ps : List Part) : Prop where
  lexemes : plain (tokens.map Token.lexeme) = Script.lexemes s
  parts : tokens.filterMap partOf? = ps

variable {ts us : List Token} {s s' : Script} {ps qs : List Part} {key : String}
  {x : Sym} {t : Tree}

theorem WrittenAs.append (h : WrittenAs ts s ps) (h' : WrittenAs us s' qs) :
    WrittenAs (ts ++ us) (s ++ s') (ps ++ qs) where
  lexemes := by
    rw [Script.lexemes_append, ← h.lexemes, ← h'.lexemes]
    simp only [plain, List.map_append, List.filter_append]
  parts := by rw [List.filterMap_append, h.parts, h'.parts]

/-- Tokens that are no strings, behind others. -/
theorem WrittenAs.append_symbols (h : WrittenAs ts s ps) (h' : WrittenAs us s' []) :
    WrittenAs (ts ++ us) (s ++ s') ps :=
  List.append_nil ps ▸ h.append h'

/-! ## Derivations of a symbol -/

/-- A derivation of a symbol, read with the productions of the query language. -/
structure DerivedFrom (x : Sym) (t : Tree) : Prop where
  derivation : t.IsDerivation productions
  symbol : t.symbol = x

theorem DerivedFrom.isKey (h : DerivedFrom (.nonterminal key) t) : isKey key t = true :=
  isKey_of_symbol h.symbol

theorem DerivedFrom.expect (h : DerivedFrom (.nonterminal key) t) (parent : Tree) :
    expect key parent t = .ok t :=
  expect_of_symbol h.symbol parent

theorem DerivedFrom.isKey_of_ne {other : String} (h : DerivedFrom (.nonterminal key) t)
    (hne : key ≠ other) : Query.isKey other t = false :=
  isKey_of_symbol_ne h.symbol hne

/-- The leaf of a symbol. -/
theorem exists_leaf (u : Symbol) (h : DerivedFrom (.terminal u.spelling) t) :
    ∃ range, t = .leaf ⟨.symbol u, range⟩ := by
  obtain ⟨_, h⟩ := h
  match t, h with
  | .leaf ⟨.string value kind, range⟩, h =>
    have hstr : Symbol.ofText? "str" = none := rfl
    rw [show "str" = u.spelling from Sym.terminal.inj h, Symbol.ofText?_spelling] at hstr
    cases hstr
  | .leaf ⟨.symbol v, range⟩, h =>
    obtain rfl := Symbol.spelling_injective (Sym.terminal.inj h)
    exact ⟨range, rfl⟩

/-- The leaf of a string. -/
theorem exists_string (h : DerivedFrom (.terminal "str") t) :
    ∃ q : Part, t = .leaf ⟨.string q.value q.kind, q.range⟩ := by
  obtain ⟨_, h⟩ := h
  match t, h with
  | .leaf ⟨.string value kind, range⟩, _ => exact ⟨⟨value, kind, range⟩, rfl⟩
  | .leaf ⟨.symbol u, range⟩, h =>
    have hstr : Symbol.ofText? "str" = none := rfl
    rw [← show u.spelling = "str" from Sym.terminal.inj h, Symbol.ofText?_spelling] at hstr
    cases hstr

/-- The bodies of the productions of a key. -/
def bodiesOf (key : String) : List (List Sym) :=
  (productions.filter (·.key == key)).map Grammar.Production.body

/-- The children of a node are derivations of the symbols of a body of its key. -/
theorem DerivedFrom.exists_children (h : DerivedFrom (.nonterminal key) t) :
    ∃ n children range, t = .node n key children range ∧
      ∃ body ∈ bodiesOf key, List.Forall₂ DerivedFrom body children := by
  obtain ⟨hderivation, hsymbol⟩ := h
  cases t with
  | leaf => cases hsymbol
  | node n k children range =>
    obtain rfl := Sym.nonterminal.inj hsymbol
    obtain ⟨⟨p, hp, hk, hbody⟩, hchildren⟩ := hderivation
    refine ⟨n, children, range, rfl, p.body,
      List.mem_map_of_mem (List.mem_filter.mpr ⟨Grammar.mem_of_numbered hp, by simp [hk]⟩), ?_⟩
    rw [← hbody, List.forall₂_map_left_iff, List.forall₂_same]
    exact fun u hu => ⟨Tree.allDerivations_iff.mp hchildren u hu, rfl⟩

/-- The leaves of symbols, and what stands behind them. -/
theorem exists_leaves {xs : List Sym} : ∀ {us : List Symbol} {ts : List Tree},
    List.Forall₂ DerivedFrom ((us.map fun u => .terminal u.spelling) ++ xs) ts →
      ∃ (tokens : List Token) (rest : List Tree), ts = tokens.map Tree.leaf ++ rest ∧
        tokens.map Token.lexeme = us.map Lexeme.symbol ∧ List.Forall₂ DerivedFrom xs rest
  | [], ts, h => ⟨[], ts, rfl, rfl, h⟩
  | u :: us, t :: ts, .cons ht hts => by
    obtain ⟨range, rfl⟩ := exists_leaf u ht
    obtain ⟨tokens, rest, rfl, htokens, hrest⟩ := exists_leaves hts
    exact ⟨⟨.symbol u, range⟩ :: tokens, rest, rfl, by rw [List.map_cons, List.map_cons, htokens],
      hrest⟩

theorem tokensOf_leaves : ∀ tokens : List Token, Tree.tokensOf (tokens.map Tree.leaf) = tokens
  | [] => rfl
  | t :: tokens => by rw [List.map_cons, Tree.tokensOf, Tree.tokens, tokensOf_leaves tokens]; rfl

/-- Symbols are written as they are, but for ampersands and slashes. -/
theorem WrittenAs.of_symbols (us : List Symbol) (h : ts.map Token.lexeme = us.map Lexeme.symbol)
    (hs : plain (us.map Lexeme.symbol) = Script.lexemes s) : WrittenAs ts s [] where
  lexemes := h ▸ hs
  parts := List.filterMap_eq_nil_iff.mpr fun ⟨l, range⟩ ht => by
    have hl : l ∈ us.map Lexeme.symbol := h ▸ List.mem_map_of_mem ht
    obtain ⟨u, _, rfl⟩ := List.mem_map.mp hl
    rfl

theorem WrittenAs.symbol (u : Symbol) (range : Span) (h : plain [.symbol u] = [.symbol u]) :
    WrittenAs [⟨.symbol u, range⟩] [sym u] [] :=
  .of_symbols [u] rfl h

/-! ## Lists -/

section lists

variable {α : Type} {f : Tree → Lowered α} {script : α → Script} {parts : α → List Part}
  {between : Script} {separators : List (Option Symbol)}

/-- The bodies of a list: its only member, or a list with a member behind it and perhaps a separator
between. -/
def listBodies (key : String) (x : Sym) (separators : List (Option Symbol)) : List (List Sym) :=
  [x] :: separators.map fun sep =>
    .nonterminal key :: (sep.toList.map (fun u => .terminal u.spelling) ++ [x])

/-- One more script behind others. -/
theorem separated_concat (between s s' : Script) (ss : List Script) :
    separated between (s :: ss ++ [s']) = separated between (s :: ss) ++ (between ++ s') := by
  simp [separated, List.flatMap_append]

/-- The children of a list are those of one of its bodies. -/
theorem cases_list
    (hbodies : bodiesOf key = listBodies key x separators)
    {body : List Sym} (hbody : body ∈ bodiesOf key) {first : Tree} {others : List Tree}
    (h : List.Forall₂ DerivedFrom body (first :: others)) :
    (others = [] ∧ DerivedFrom x first) ∨
    ∃ sep ∈ separators, ∃ (tokens : List Token) (last : Tree),
      others = tokens.map Tree.leaf ++ [last] ∧
      tokens.map Token.lexeme = sep.toList.map Lexeme.symbol ∧
      DerivedFrom (.nonterminal key) first ∧ DerivedFrom x last := by
  rw [hbodies, listBodies, List.mem_cons, List.mem_map] at hbody
  rcases hbody with rfl | ⟨sep, hsep, rfl⟩
  · obtain _ | ⟨hfirst, ⟨⟩⟩ := h
    exact .inl ⟨rfl, hfirst⟩
  · obtain _ | ⟨hfirst, hothers⟩ := h
    obtain ⟨tokens, rest, rfl, htokens, hrest⟩ := exists_leaves hothers
    obtain _ | ⟨hlast, ⟨⟩⟩ := hrest
    exact .inr ⟨sep, hsep, tokens, _, rfl, htokens, hfirst, hlast⟩

theorem exists_members_onto (hbodies : bodiesOf key = listBodies key x separators)
    (hseparators : ∀ sep ∈ separators, plain (sep.toList.map Lexeme.symbol) = lexemes between)
    (hmember : ∀ u, DerivedFrom x u →
      ∃ a, f u = .ok a ∧ WrittenAs u.tokens (script a) (parts a)) :
    ∀ {t : Tree}, DerivedFrom (.nonterminal key) t →
      ∃ us a as, (∀ done, leftListOnto key done t = .ok (us ++ done)) ∧
        (∀ u ∈ us, DerivedFrom x u) ∧ us.mapM f = .ok (a :: as) ∧
        WrittenAs t.tokens (separated between ((a :: as).map script)) ((a :: as).flatMap parts)
  | .leaf _, h => by cases h.symbol
  | .node n k [] range, h => by
    obtain ⟨_, _, _, heq, body, hbody, hchildren⟩ := h.exists_children
    obtain ⟨-, hk, rfl, -⟩ := Tree.node.inj heq
    cases hchildren
    rw [hbodies] at hbody
    simp [listBodies] at hbody
  | .node n k (first :: others) range, h => by
    obtain ⟨_, _, _, heq, body, hbody, hchildren⟩ := h.exists_children
    obtain ⟨-, hk, rfl, -⟩ := Tree.node.inj heq
    rcases cases_list hbodies hbody hchildren with
      ⟨rfl, hfirst⟩ | ⟨sep, hsep, tokens, last, rfl, htokens, hfirst, hlast⟩
    · obtain rfl := hk.symm
      obtain ⟨a, ha, hwritten⟩ := hmember first hfirst
      refine ⟨[first], a, [], fun done => by simp [leftListOnto],
        List.forall_mem_singleton.mpr hfirst, by rw [List.mapM_cons, ha]; rfl, ?_⟩
      simpa [Tree.tokens, Tree.tokensOf, separated] using hwritten
    · obtain rfl := hk.symm
      obtain ⟨us, a, as, hlist, hus, has, hwritten⟩ :=
        exists_members_onto hbodies hseparators hmember hfirst
      obtain ⟨b, hb, hwritten'⟩ := hmember last hlast
      have hlength : tokens.length ≤ 1 := by
        have := congrArg List.length htokens
        cases sep <;> simp_all
      refine ⟨us ++ [last], a, as ++ [b], fun done => ?_,
        List.forall_mem_append.mpr ⟨hus, List.forall_mem_singleton.mpr hlast⟩, ?_, ?_⟩
      · rw [leftListOnto_node hfirst.isKey (by simpa using hlength), hlist, List.append_assoc]
        rfl
      · rw [List.mapM_append, has, List.mapM_cons, hb]
        rfl
      · have hbehind := (WrittenAs.of_symbols _ htokens (hseparators sep hsep)).append hwritten'
        have hall := hwritten.append hbehind
        rw [List.map_cons, ← separated_concat] at hall
        simpa [Tree.tokens, Tree.tokensOf, Tree.tokensOf_append, tokensOf_leaves] using hall

/-- **The members of a list** are read in order when each is read, and what is read is written as
the list when each is written as its member. -/
theorem exists_members (between : Script) (separators : List (Option Symbol))
    (hbodies : bodiesOf key = listBodies key x separators)
    (hseparators : ∀ sep ∈ separators, plain (sep.toList.map Lexeme.symbol) = lexemes between)
    (hmember : ∀ u, DerivedFrom x u →
      ∃ a, f u = .ok a ∧ WrittenAs u.tokens (script a) (parts a))
    (h : DerivedFrom (.nonterminal key) t) :
    ∃ us a as, leftList key t = .ok us ∧ (∀ u ∈ us, DerivedFrom x u) ∧
      us.mapM f = .ok (a :: as) ∧
      WrittenAs t.tokens (separated between ((a :: as).map script)) ((a :: as).flatMap parts) := by
  obtain ⟨us, a, as, hlist, h⟩ := exists_members_onto hbodies hseparators hmember h
  exact ⟨us, a, as, by rw [leftList, hlist, List.append_nil], h⟩

end lists

/-! ## Paths and values -/

/-- **A path is read**, and written as its tokens. -/
theorem exists_readPath (h : DerivedFrom (.nonterminal "STRING") t) :
    ∃ p, (∀ parent, readPathAt parent t = .ok p) ∧ WrittenAs t.tokens p.script p.parts := by
  obtain ⟨us, q, qs, hlist, -, hqs, hwritten⟩ := exists_members [sym .dot] [some .dot]
    (x := .terminal "str") (f := readPart t) (by decide) (by decide) (fun u hu =>
      show ∃ q, readPart t u = .ok q ∧ WrittenAs u.tokens [q.piece] [q] by
        obtain ⟨q, rfl⟩ := exists_string hu
        exact ⟨q, rfl, rfl, rfl⟩) h
  refine ⟨⟨q, qs⟩, fun parent => ?_, by simpa [Path.script, Path.parts] using hwritten⟩
  rw [readPathAt, h.expect, ok_bind, readPath, hlist, ok_bind, hqs]
  rfl

theorem readValuePrefix_signs (n : Nat) (range : Span) {children : List Tree}
    {direction : Option Direction} {source : Bool} (hne : signs direction source ≠ [])
    (h : children.map symbolOf? = (signs direction source).map some) :
    readValuePrefix (.node n "VALUE_PREFIX" children range) = .ok (direction, source) := by
  rw [readValuePrefix, childrenOf, h]
  cases direction with
  | none =>
    cases source with
    | false => exact absurd rfl hne
    | true => rfl
  | some d => cases d <;> cases source <;> rfl

theorem bodiesOf_valuePrefix : ∀ body ∈ bodiesOf "VALUE_PREFIX", ∃ direction source,
    signs direction source ≠ [] ∧
      body = (signs direction source).map fun u => .terminal u.spelling := by
  have hbodies : bodiesOf "VALUE_PREFIX" = [[.terminal "+"], [.terminal "-"], [.terminal "^"],
    [.terminal "+", .terminal "^"], [.terminal "-", .terminal "^"]] := by decide
  simp only [hbodies, List.forall_mem_cons, List.not_mem_nil, false_imp_iff, forall_const, and_true]
  exact ⟨⟨some .ascending, false, by decide, rfl⟩, ⟨some .descending, false, by decide, rfl⟩,
    ⟨none, true, by decide, rfl⟩, ⟨some .ascending, true, by decide, rfl⟩,
    ⟨some .descending, true, by decide, rfl⟩⟩

/-- What is written before a value is read. -/
theorem exists_readValuePrefix (h : DerivedFrom (.nonterminal "VALUE_PREFIX") t) :
    ∃ direction source, readValuePrefix t = .ok (direction, source) ∧
      WrittenAs t.tokens ((signs direction source).map sym) [] := by
  obtain ⟨n, children, range, rfl, body, hbody, hchildren⟩ := h.exists_children
  obtain ⟨direction, source, hne, rfl⟩ := bodiesOf_valuePrefix body hbody
  rw [← List.append_nil (List.map _ _)] at hchildren
  obtain ⟨tokens, _, rfl, htokens, ⟨⟩⟩ := exists_leaves hchildren
  rw [List.append_nil, Tree.tokens, tokensOf_leaves]
  refine ⟨direction, source, readValuePrefix_signs n range hne (map_symbolOf?_leaves htokens),
    .of_symbols _ htokens ?_⟩
  cases direction with
  | none => cases source <;> rfl
  | some d => cases d <;> cases source <;> rfl

theorem Value.script_eq (v : Value) :
    v.script = (signs v.direction v.source).map sym ++ v.path.script := by
  obtain ⟨direction, source, path, range⟩ := v
  match direction, source with
  | none, false | none, true | some _, false | some _, true => rfl

/-- **A value is read**, and written as its tokens. -/
theorem exists_readValue (h : DerivedFrom (.nonterminal "VALUE") t) :
    ∃ v, readValue t = .ok v ∧ WrittenAs t.tokens v.script v.path.parts := by
  obtain ⟨n, children, range, rfl, body, hbody, hchildren⟩ := h.exists_children
  have hbodies : bodiesOf "VALUE" =
      [[.nonterminal "STRING"], [.nonterminal "VALUE_PREFIX", .nonterminal "STRING"]] := by decide
  rw [hbodies, List.mem_cons, List.mem_singleton] at hbody
  rcases hbody with rfl | rfl
  · obtain _ | ⟨hpath, ⟨⟩⟩ := hchildren
    obtain ⟨p, hp, hwritten⟩ := exists_readPath hpath
    refine ⟨_, by simp only [readValue, childrenOf, hp, ok_bind]; rfl, ?_⟩
    simpa [Tree.tokens, Tree.tokensOf, Value.script] using hwritten
  · obtain _ | ⟨hbefore, _ | ⟨hpath, ⟨⟩⟩⟩ := hchildren
    obtain ⟨direction, source, hd, hsigns⟩ := exists_readValuePrefix hbefore
    obtain ⟨p, hp, hwritten⟩ := exists_readPath hpath
    refine ⟨_, by simp only [readValue, childrenOf, hbefore.expect, hd, hp, ok_bind]; rfl, ?_⟩
    simpa [Tree.tokens, Tree.tokensOf, Value.script_eq] using hsigns.append hwritten

/-! ## Nodes of one symbol -/

/-- A node over one of some symbols. -/
theorem exists_onlySymbol (us : List Symbol)
    (hbodies : bodiesOf key = us.map fun u => [.terminal u.spelling])
    (h : DerivedFrom (.nonterminal key) t) :
    ∃ u ∈ us, onlySymbol? t = some u ∧ (childrenOf t).head?.bind symbolOf? = some u ∧
      (plain [.symbol u] = [.symbol u] → WrittenAs t.tokens [sym u] []) := by
  obtain ⟨n, children, range, rfl, body, hbody, hchildren⟩ := h.exists_children
  rw [hbodies, List.mem_map] at hbody
  obtain ⟨u, hu, rfl⟩ := hbody
  obtain _ | ⟨hleaf, ⟨⟩⟩ := hchildren
  obtain ⟨range, rfl⟩ := exists_leaf u hleaf
  exact ⟨u, hu, rfl, rfl, fun hplain => .of_symbols [u] rfl hplain⟩

theorem exists_readFamily (h : DerivedFrom (.nonterminal "FAMILY") t) :
    ∃ family, readFamily t = .ok family ∧ WrittenAs t.tokens [sym family.symbol] [] := by
  obtain ⟨u, hu, honly, -, hwritten⟩ := exists_onlySymbol
    ([Family.equal, .gt, .gte, .lt, .lte, .similar].map Family.symbol) (by decide) h
  obtain ⟨family, -, rfl⟩ := List.mem_map.mp hu
  refine ⟨family, ?_, hwritten (by cases family <;> rfl)⟩
  rw [readFamily, honly]
  cases family <;> rfl

theorem exists_readUnary (h : DerivedFrom (.nonterminal "UNARY_FAMILY") t) :
    ∃ direction, readUnary t = .ok direction ∧
      WrittenAs t.tokens (Relation.unary direction t.range).script [] := by
  obtain ⟨u, hu, honly, -, hwritten⟩ := exists_onlySymbol
    [.tildePlus, .tildeMinus] (by decide) h
  rw [List.mem_cons, List.mem_singleton] at hu
  rw [readUnary, honly]
  rcases hu with rfl | rfl
  · exact ⟨.ascending, rfl, hwritten rfl⟩
  · exact ⟨.descending, rfl, hwritten rfl⟩

theorem exists_readMark (h : DerivedFrom (.nonterminal "ELEMENT_PREFIX") t) :
    ∃ mark, readMark t = .ok mark ∧ WrittenAs t.tokens [sym mark.symbol] [] := by
  obtain ⟨u, hu, honly, -, hwritten⟩ := exists_onlySymbol
    ([Mark.author, .topic, .tag].map Mark.symbol) (by decide) h
  obtain ⟨mark, -, rfl⟩ := List.mem_map.mp hu
  refine ⟨mark, ?_, hwritten (by cases mark <;> rfl)⟩
  rw [readMark, honly]
  cases mark <;> rfl

/-- A bracket of one of two shapes. -/
theorem exists_readBracket (included excluded : Symbol) (hne : excluded ≠ included)
    (hplain : ∀ u ∈ [included, excluded], plain [.symbol u] = [.symbol u])
    (hbodies : bodiesOf key = [included, excluded].map fun u => [.terminal u.spelling])
    (h : DerivedFrom (.nonterminal key) t) :
    ∃ b : Bool, (∀ parent, readBracket key included excluded parent t = .ok b) ∧
      WrittenAs t.tokens [sym (if b then included else excluded)] [] := by
  obtain ⟨u, hu, -, hhead, hwritten⟩ := exists_onlySymbol _ hbodies h
  have hwritten := hwritten (hplain u hu)
  simp only [readBracket, h.expect, ok_bind, hhead]
  rw [List.mem_cons, List.mem_singleton] at hu
  rcases hu with rfl | rfl
  · exact ⟨true, fun _ => if_pos rfl, hwritten⟩
  · exact ⟨false, fun _ => (if_neg hne).trans (if_pos rfl), hwritten⟩

/-! ## Relations -/

theorem exists_readPathList (h : DerivedFrom (.nonterminal "COLLECTION_ITEM") t) :
    ∃ us ps, leftList "COLLECTION_ITEM" t = .ok us ∧ us.mapM (readPathAt t) = .ok ps ∧
      WrittenAs t.tokens (separated [sym .comma, none] (ps.map Path.script))
        (ps.flatMap Path.parts) := by
  obtain ⟨us, p, ps, hlist, -, hps, hwritten⟩ := exists_members [sym .comma, none]
    [some .comma] (x := .nonterminal "STRING") (f := readPathAt t) (by decide) (by decide)
    (fun u hu => by
      obtain ⟨p, hp, hwritten⟩ := exists_readPath hu
      exact ⟨p, hp t, hwritten⟩) h
  exact ⟨us, p :: ps, hlist, hps, hwritten⟩

/-- A collection is read. -/
theorem exists_readCollection (h : DerivedFrom (.nonterminal "COLLECTION") t) :
    ∃ ps, readCollection t = .ok ps ∧
      WrittenAs t.tokens (Predicate.collection ps).script (Predicate.collection ps).parts := by
  obtain ⟨n, children, range, rfl, body, hbody, hchildren⟩ := h.exists_children
  have hbodies : bodiesOf "COLLECTION" = [[.terminal "\x7b", .terminal "\x7d"],
      [.terminal "\x7b", .nonterminal "COLLECTION_ITEM", .terminal "\x7d"]] := by decide
  rw [hbodies, List.mem_cons, List.mem_singleton] at hbody
  rcases hbody with rfl | rfl
  · obtain _ | ⟨hopening, _ | ⟨hclosing, ⟨⟩⟩⟩ := hchildren
    obtain ⟨_, rfl⟩ := exists_leaf .lBrace hopening
    obtain ⟨_, rfl⟩ := exists_leaf .rBrace hclosing
    exact ⟨[], rfl, .of_symbols [.lBrace, .rBrace] rfl rfl⟩
  · obtain _ | ⟨hopening, _ | ⟨hitems, _ | ⟨hclosing, ⟨⟩⟩⟩⟩ := hchildren
    obtain ⟨_, rfl⟩ := exists_leaf .lBrace hopening
    obtain ⟨_, rfl⟩ := exists_leaf .rBrace hclosing
    obtain ⟨us, ps, hlist, hps, hwritten⟩ := exists_readPathList hitems
    refine ⟨ps, by simp only [readCollection, childrenOf, hitems.expect, ok_bind, hlist, hps], ?_⟩
    simpa [Tree.tokens, Tree.tokensOf, Predicate.script, Predicate.parts] using
      (WrittenAs.symbol .lBrace _ rfl).append (hwritten.append_symbols (.symbol .rBrace _ rfl))

/-- A range is read. -/
theorem exists_readRange (h : DerivedFrom (.nonterminal "RANGE") t) :
    ∃ r, readRange t = .ok r ∧
      WrittenAs t.tokens (Predicate.range r).script (Predicate.range r).parts := by
  obtain ⟨n, children, range, rfl, body, hbody, hchildren⟩ := h.exists_children
  have hbodies : bodiesOf "RANGE" =
      [[.nonterminal "STRING", .terminal "..", .nonterminal "STRING"],
        [.nonterminal "RANGE_BEGIN", .nonterminal "STRING", .terminal ",", .nonterminal "STRING",
          .nonterminal "RANGE_END"]] := by decide
  rw [hbodies, List.mem_cons, List.mem_singleton] at hbody
  rcases hbody with rfl | rfl
  · obtain _ | ⟨hfirst, _ | ⟨hdots, _ | ⟨hlast, ⟨⟩⟩⟩⟩ := hchildren
    obtain ⟨_, rfl⟩ := exists_leaf .dotDot hdots
    obtain ⟨p, hp, hfirst⟩ := exists_readPath hfirst
    obtain ⟨q, hq, hlast⟩ := exists_readPath hlast
    refine ⟨_, by simp only [readRange, childrenOf, hp, hq, ok_bind]; rfl, ?_⟩
    simpa [Tree.tokens, Tree.tokensOf, Predicate.script, RangeLiteral.script, Predicate.parts] using
      hfirst.append ((WrittenAs.symbol .dotDot _ rfl).append hlast)
  · obtain _ | ⟨hopening, _ | ⟨hfirst, _ | ⟨hcomma, _ | ⟨hlast, _ | ⟨hclosing, ⟨⟩⟩⟩⟩⟩⟩ := hchildren
    obtain ⟨_, rfl⟩ := exists_leaf .comma hcomma
    obtain ⟨b, hb, hopening⟩ := exists_readBracket .lBracket .lParen
      (by decide) (by decide) (by decide) hopening
    obtain ⟨e, he, hclosing⟩ := exists_readBracket .rBracket .rParen
      (by decide) (by decide) (by decide) hclosing
    obtain ⟨p, hp, hfirst⟩ := exists_readPath hfirst
    obtain ⟨q, hq, hlast⟩ := exists_readPath hlast
    refine ⟨_, by simp only [readRange, childrenOf, hb, he, hp, hq, ok_bind]; rfl, ?_⟩
    simpa [Tree.tokens, Tree.tokensOf, Predicate.script, RangeLiteral.script, Predicate.parts] using
      hopening.append (hfirst.append ((WrittenAs.symbol .comma _ rfl).append
        (hlast.append_symbols hclosing)))

theorem exists_readValueList (h : DerivedFrom (.nonterminal "VALUE_LIST") t) :
    ∃ us vs, leftList "VALUE_LIST" t = .ok us ∧
      us.mapM (fun m => do readValue (← expect "VALUE" t m)) = .ok vs ∧
      WrittenAs t.tokens (Predicate.values vs).script (Predicate.values vs).parts := by
  obtain ⟨us, v, vs, hlist, -, hvs, hwritten⟩ := exists_members [sym .comma] [some .comma]
    (x := .nonterminal "VALUE") (f := fun m => do readValue (← expect "VALUE" t m)) (by decide)
    (by decide) (fun u hu => by
      obtain ⟨v, hv, hwritten⟩ := exists_readValue hu
      exact ⟨v, by rw [hu.expect, ok_bind, hv], hwritten⟩) h
  exact ⟨us, v :: vs, hlist, hvs, hwritten⟩

/-- **A predicate is read**, and written as its tokens. -/
theorem exists_readPredicate (h : DerivedFrom (.nonterminal "PREDICATIVE") t) :
    ∃ p, readPredicate t = .ok p ∧ WrittenAs t.tokens p.script p.parts := by
  obtain ⟨n, children, range, rfl, body, hbody, hchildren⟩ := h.exists_children
  have hbodies : bodiesOf "PREDICATIVE" = [[.nonterminal "VALUE_LIST"],
      [.nonterminal "COLLECTION"], [.nonterminal "RANGE"]] := by decide
  rw [hbodies, List.mem_cons, List.mem_cons, List.mem_singleton] at hbody
  rcases hbody with rfl | rfl | rfl
  · obtain _ | ⟨hvalues, ⟨⟩⟩ := hchildren
    obtain ⟨us, vs, hlist, hvs, hwritten⟩ := exists_readValueList hvalues
    refine ⟨.values vs, ?_, by simpa [Tree.tokens, Tree.tokensOf] using hwritten⟩
    simp only [readPredicate, childrenOf, hvalues.isKey, if_true, hlist, ok_bind, hvs]
    rfl
  · obtain _ | ⟨hcollection, ⟨⟩⟩ := hchildren
    obtain ⟨ps, hps, hwritten⟩ := exists_readCollection hcollection
    refine ⟨.collection ps, ?_, by simpa [Tree.tokens, Tree.tokensOf] using hwritten⟩
    simp only [readPredicate, childrenOf, hcollection.isKey_of_ne (by decide : _ ≠ "VALUE_LIST"),
      hcollection.isKey, hps, ok_bind]
    rfl
  · obtain _ | ⟨hrange, ⟨⟩⟩ := hchildren
    obtain ⟨r, hr, hwritten⟩ := exists_readRange hrange
    refine ⟨.range r, ?_, by simpa [Tree.tokens, Tree.tokensOf] using hwritten⟩
    simp only [readPredicate, childrenOf, hrange.isKey_of_ne (by decide : _ ≠ "VALUE_LIST"),
      hrange.isKey_of_ne (by decide : _ ≠ "COLLECTION"), hrange.isKey, hr, ok_bind]
    rfl

/-! ## Phrases and items -/

theorem exists_readSubject (h : DerivedFrom (.nonterminal "SUBJECT") t) :
    ∃ p, (∀ node, readSubject node t = .ok p) ∧ WrittenAs t.tokens p.script p.parts := by
  obtain ⟨n, children, range, rfl, body, hbody, hchildren⟩ := h.exists_children
  have hbodies : bodiesOf "SUBJECT" = [[.nonterminal "STRING"]] := by decide
  rw [hbodies, List.mem_singleton] at hbody
  obtain rfl := hbody
  obtain _ | ⟨hpath, ⟨⟩⟩ := hchildren
  obtain ⟨p, hp, hwritten⟩ := exists_readPath hpath
  refine ⟨p, fun node => ?_, by simpa [Tree.tokens, Tree.tokensOf] using hwritten⟩
  simp only [readSubject, h.expect, ok_bind, childrenOf, hp]

/-- **A phrase is read**, and written as its tokens. -/
theorem exists_readPhrase (h : DerivedFrom (.nonterminal "SFP") t) :
    ∃ p, readPhrase t = .ok p ∧ WrittenAs t.tokens p.script p.parts := by
  obtain ⟨n, children, range, rfl, body, hbody, hchildren⟩ := h.exists_children
  have hbodies : bodiesOf "SFP" = [[.nonterminal "SUBJECT"],
      [.nonterminal "SUBJECT", .nonterminal "FAMILY", .nonterminal "PREDICATIVE"],
      [.nonterminal "SUBJECT", .nonterminal "UNARY_FAMILY"]] := by decide
  rw [hbodies, List.mem_cons, List.mem_cons, List.mem_singleton] at hbody
  rcases hbody with rfl | rfl | rfl
  · obtain _ | ⟨hsubject, ⟨⟩⟩ := hchildren
    obtain ⟨p, hp, hwritten⟩ := exists_readSubject hsubject
    refine ⟨_, by simp only [readPhrase, childrenOf, hp, ok_bind]; rfl, ?_⟩
    simpa [Tree.tokens, Tree.tokensOf, Phrase.script, Phrase.parts] using hwritten
  · obtain _ | ⟨hsubject, _ | ⟨hfamily, _ | ⟨hpredicate, ⟨⟩⟩⟩⟩ := hchildren
    obtain ⟨p, hp, hsubject⟩ := exists_readSubject hsubject
    obtain ⟨f, hf, hsymbol⟩ := exists_readFamily hfamily
    obtain ⟨q, hq, hwritten⟩ := exists_readPredicate hpredicate
    refine ⟨_, by
      simp only [readPhrase, childrenOf, hp, hfamily.expect, hf, hpredicate.expect, hq, ok_bind]
      rfl, ?_⟩
    simpa [Tree.tokens, Tree.tokensOf, Phrase.script, Phrase.parts, Relation.script,
      Relation.parts] using hsubject.append (hsymbol.append hwritten)
  · obtain _ | ⟨hsubject, _ | ⟨hunary, ⟨⟩⟩⟩ := hchildren
    obtain ⟨p, hp, hsubject⟩ := exists_readSubject hsubject
    obtain ⟨d, hd, hwritten⟩ := exists_readUnary hunary
    refine ⟨_, by simp only [readPhrase, childrenOf, hp, hunary.expect, hd, ok_bind]; rfl, ?_⟩
    simpa [Tree.tokens, Tree.tokensOf, Phrase.script, Phrase.parts, Relation.parts] using
      hsubject.append hwritten

theorem exists_readPhrases (h : DerivedFrom (.nonterminal "ELEMENT_ITEM") t) :
    ∃ ps, (∀ node, readPhrases node t = .ok ps) ∧
      WrittenAs t.tokens (separated [sym .pipe] (ps.map Phrase.script))
        (ps.flatMap Phrase.parts) := by
  obtain ⟨us, p, ps, hlist, -, hps, hwritten⟩ := exists_members [sym .pipe]
    [some .pipe, some .slash] (x := .nonterminal "SFP")
    (f := fun m => do readPhrase (← expect "SFP" t m)) (by decide) (by decide) (fun u hu => by
      obtain ⟨p, hp, hwritten⟩ := exists_readPhrase hu
      exact ⟨p, by rw [hu.expect, ok_bind, hp], hwritten⟩) h
  exact ⟨p :: ps, fun node => by rw [readPhrases, h.expect, ok_bind, hlist, ok_bind, hps],
    hwritten⟩

theorem exists_readElement (h : DerivedFrom (.nonterminal "ELEMENT") t) :
    ∃ e, readElement t = .ok e ∧ WrittenAs t.tokens e.script (e.phrases.flatMap Phrase.parts) := by
  obtain ⟨n, children, range, rfl, body, hbody, hchildren⟩ := h.exists_children
  have hbodies : bodiesOf "ELEMENT" = [[.nonterminal "ELEMENT_ITEM"],
      [.nonterminal "ELEMENT_PREFIX", .nonterminal "ELEMENT_ITEM"]] := by decide
  rw [hbodies, List.mem_cons, List.mem_singleton] at hbody
  rcases hbody with rfl | rfl
  · obtain _ | ⟨hphrases, ⟨⟩⟩ := hchildren
    obtain ⟨ps, hps, hwritten⟩ := exists_readPhrases hphrases
    refine ⟨_, by simp only [readElement, childrenOf, hps, ok_bind]; rfl, ?_⟩
    simpa [Tree.tokens, Tree.tokensOf, Element.script] using hwritten
  · obtain _ | ⟨hmark, _ | ⟨hphrases, ⟨⟩⟩⟩ := hchildren
    obtain ⟨m, hm, hsymbol⟩ := exists_readMark hmark
    obtain ⟨ps, hps, hwritten⟩ := exists_readPhrases hphrases
    refine ⟨_, by simp only [readElement, childrenOf, hmark.expect, hm, hps, ok_bind]; rfl, ?_⟩
    simpa [Tree.tokens, Tree.tokensOf, Element.script] using hsymbol.append hwritten

theorem Item.script_eq (i : Item) :
    i.script = (itemMarks i.exclude i.source).map sym ++ i.element.script := by
  obtain ⟨exclude, source, element, range⟩ := i
  cases exclude <;> cases source <;> rfl

theorem bodiesOf_item : ∀ body ∈ bodiesOf "SEQUENCE_ITEM", ∃ exclude source,
    body = ((itemMarks exclude source).map fun u => .terminal u.spelling) ++
      [.nonterminal "ELEMENT"] := by
  have hbodies : bodiesOf "SEQUENCE_ITEM" = [[.nonterminal "ELEMENT"],
    [.terminal "^", .nonterminal "ELEMENT"], [.terminal "-", .nonterminal "ELEMENT"],
    [.terminal "-", .terminal "^", .nonterminal "ELEMENT"]] := by decide
  simp only [hbodies, List.forall_mem_cons, List.not_mem_nil, false_imp_iff, forall_const, and_true]
  exact ⟨⟨false, false, rfl⟩, ⟨false, true, rfl⟩, ⟨true, false, rfl⟩, ⟨true, true, rfl⟩⟩

/-- **An item is read**, and written as its tokens. -/
theorem exists_readItem (h : DerivedFrom (.nonterminal "SEQUENCE_ITEM") t) :
    ∃ i, readItem t = .ok i ∧ WrittenAs t.tokens i.script i.parts := by
  obtain ⟨n, children, range, rfl, body, hbody, hchildren⟩ := h.exists_children
  obtain ⟨exclude, source, rfl⟩ := bodiesOf_item body hbody
  obtain ⟨marks, _, rfl, hmarks, hlast⟩ := exists_leaves hchildren
  obtain _ | ⟨helement, ⟨⟩⟩ := hlast
  obtain ⟨e, he, hwritten⟩ := exists_readElement helement
  refine ⟨_, by
    simp only [readItem, childrenOf, List.getLast?_concat, List.dropLast_concat, helement.expect,
      he, ok_bind, readMarks_itemMarks _ (map_symbolOf?_leaves hmarks)]
    rfl, ?_⟩
  have hall := (WrittenAs.of_symbols (s := (itemMarks exclude source).map sym) _ hmarks
    (by cases exclude <;> cases source <;> rfl)).append hwritten
  simpa [Tree.tokens, Tree.tokensOf, Tree.tokensOf_append, tokensOf_leaves,
    Item.script_eq, Item.parts] using hall

/-! ## Queries -/

/-- **Reading a query loses nothing.** What the grammar accepts is parsed and read without a fault,
and the items are written as the tokens, but for ampersands, and with bars for slashes. Each string
of the text is a string of the items, in its order, with its kind and its place. -/
theorem lossless {tokens : List Token}
    (h : Grammar.IsSentence grammar.productions (Grammar.terminalsOf tokens)) :
    ∃ t nodes items, grammar.parse tokens = ⟨some t, [], []⟩ ∧ itemNodes t = .ok nodes ∧
      nodes.mapM readItem = .ok items ∧
      lexemes (script items) = plain (tokens.map Token.lexeme) ∧
      items.flatMap Item.parts = tokens.filterMap partOf? := by
  obtain ⟨d, hd, hleaves⟩ := h
  obtain ⟨t, hparse, -⟩ := Grammar.parse_of_derives isBuilt_grammar.wellDefined
    isBuilt_grammar.table hd hleaves.symm
  have ht := derived_of_parse (t := t) (by rw [hparse])
  have hfrom : DerivedFrom (.nonterminal "SEQUENCE") t := ⟨ht.derivation, ht.symbol⟩
  obtain ⟨nodes, i, is, hnodes, hitems, his, hwritten⟩ := exists_members [none]
    [none, some .amp] (x := .nonterminal "SEQUENCE_ITEM") (f := readItem) (by decide) (by decide)
    (fun u hu => exists_readItem hu) hfrom
  have hexpect : nodes.mapM (expect "SEQUENCE_ITEM" t) = .ok nodes :=
    mapM_eq_self (List.forall₂_same.mpr fun u hu => (hitems u hu).expect t)
  refine ⟨t, nodes, i :: is, hparse, ?_, his, ?_, ?_⟩
  · rw [itemNodes, hnodes, ok_bind, hexpect]
  · rw [← ht.tokens, hwritten.lexemes, script]
  · rw [← ht.tokens, hwritten.parts]

/-- The tokens of `-^a/b & c`. -/
def slashTokens : List Token :=
  [⟨.symbol .minus, .between 0 1⟩, ⟨.symbol .caret, .between 1 2⟩,
    ⟨.string "a" .word, .between 2 3⟩,
    ⟨.symbol .slash, .between 3 4⟩, ⟨.string "b" .word, .between 4 5⟩,
    ⟨.symbol .amp, .between 6 7⟩, ⟨.string "c" .word, .between 8 9⟩]

/-- The tree of `-^a/b & c`. -/
def slashTree : Tree :=
  match slashTokens.map Tree.leaf with
  | [minus, caret, a, slash, b, amp, c] =>
    let phrase := fun t => nodeOf 16 "SFP" [nodeOf 18 "SUBJECT" [nodeOf 28 "STRING" [t]]]
    let first := nodeOf 7 "SEQUENCE_ITEM" [minus, caret, nodeOf 8 "ELEMENT"
      [nodeOf 15 "ELEMENT_ITEM" [nodeOf 13 "ELEMENT_ITEM" [phrase a], slash, phrase b]]]
    let second :=
      nodeOf 4 "SEQUENCE_ITEM" [nodeOf 8 "ELEMENT" [nodeOf 13 "ELEMENT_ITEM" [phrase c]]]
    nodeOf 3 "SEQUENCE" [nodeOf 1 "SEQUENCE" [first], amp, second]
  | _ => default

theorem derived_slashTree : Derived (.nonterminal "SEQUENCE") slashTokens slashTree where
  derivation := by decide
  located := by simp [slashTree, slashTokens, nodeOf, Tree.Located, Tree.AllLocated]
  tokens := rfl
  symbol := rfl

/-- `-^a/b & c` is read as `-^a|b c`. -/
theorem lossless_slash :
    Grammar.IsSentence grammar.productions (Grammar.terminalsOf slashTokens) ∧
      ∃ t nodes items, grammar.parse slashTokens = ⟨some t, [], []⟩ ∧ itemNodes t = .ok nodes ∧
        nodes.mapM readItem = .ok items ∧
        lexemes (script items) = [.symbol .minus, .symbol .caret, .string "a" .word, .symbol .pipe,
          .string "b" .word, .string "c" .word] ∧
        items.flatMap Item.parts = [⟨"a", .word, .between 2 3⟩, ⟨"b", .word, .between 4 5⟩,
          ⟨"c", .word, .between 8 9⟩] := by
  have hsentence : Grammar.IsSentence grammar.productions (Grammar.terminalsOf slashTokens) :=
    ⟨_, derived_slashTree.derives, derived_slashTree.leaves⟩
  exact ⟨hsentence, lossless hsentence⟩

end Query

end PixQuery
