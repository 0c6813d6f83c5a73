import PixQuery.Proofs.Query.Members
import PixQuery.Proofs.Query.Script

/-!
# A query that was written is read back

For every part of a query there is a parse tree over the tokens that its script asks for, and what
is read from that tree is the part itself, but for the ranges: those are where the tokens stand. As
the parser returns any located derivation of its tokens, that tree is the one it finds.

Results:
* `exists_leftList`: a left-recursive list over its members, which are read back in order.
* `exists_item`: an item.
* `parse_script`: the tokens of a query are parsed, and its items are read back.
-/

namespace PixQuery.Query

open Grammar (Sym numbered?)
open Script (lexemes sym separated)
open Understood (ok_bind)

/-! ## Queries without ranges -/

/-- A string, wherever it stands. -/
def Part.unplaced (p : Part) : Part := { p with range := .point 0 }

/-- A path, wherever it stands. -/
def Path.unplaced (p : Path) : Path := ⟨p.first.unplaced, p.others.map Part.unplaced⟩

/-- A value, wherever it stands. -/
def Value.unplaced (v : Value) : Value := ⟨v.direction, v.source, v.path.unplaced, .point 0⟩

/-- A range, wherever it stands. -/
def RangeLiteral.unplaced (r : RangeLiteral) : RangeLiteral :=
  ⟨r.first.unplaced, r.last.unplaced, r.brackets⟩

/-- A predicate, wherever it stands. -/
def Predicate.unplaced : Predicate → Predicate
  | values vs => values (vs.map Value.unplaced)
  | collection ps => collection (ps.map Path.unplaced)
  | range r => range r.unplaced

/-- A relation, wherever it stands. -/
def Relation.unplaced : Relation → Relation
  | binary family predicate _ => binary family predicate.unplaced (.point 0)
  | unary direction _ => unary direction (.point 0)

/-- A phrase, wherever it stands. -/
def Phrase.unplaced (p : Phrase) : Phrase :=
  ⟨p.subject.unplaced, p.relation.map Relation.unplaced, .point 0⟩

/-- An element, wherever it stands. -/
def Element.unplaced (e : Element) : Element := ⟨e.mark, e.phrases.map Phrase.unplaced, .point 0⟩

/-- An item, wherever it stands. -/
def Item.unplaced (i : Item) : Item := ⟨i.exclude, i.source, i.element.unplaced, .point 0⟩

/-! ## Tokens -/

theorem terminal_of_symbol {t : Token} {s : Symbol} (h : t.lexeme = .symbol s) :
    t.terminal = s.spelling := by
  rw [Token.terminal, h]

theorem symbolOf?_leaf {t : Token} {s : Symbol} (h : t.lexeme = .symbol s) :
    symbolOf? (.leaf t) = some s := by
  rw [symbolOf?, Token.symbol?, h]

variable {tokens : List Token} {t : Tree} {key : String}

theorem Derived.isKey (h : Derived (.nonterminal key) tokens t) : isKey key t = true :=
  isKey_of_symbol h.symbol

theorem Derived.isKey_of_ne {other : String} (h : Derived (.nonterminal key) tokens t)
    (hne : key ≠ other) : Query.isKey other t = false :=
  isKey_of_symbol_ne h.symbol hne

theorem Derived.expect (h : Derived (.nonterminal key) tokens t) (parent : Tree) :
    expect key parent t = .ok t :=
  expect_of_symbol h.symbol parent

/-! ## Lists -/

variable {α : Type} {x : Sym} {Q : α → Tree → Prop} {ls : α → List Lexeme} {seps : List Symbol}

theorem derivedAll_symbols : ∀ {seps : List Symbol} {ts : List Token},
    ts.map Token.lexeme = seps.map Lexeme.symbol →
      DerivedAll (seps.map fun s => Sym.terminal s.spelling) ts (ts.map Tree.leaf)
  | [], [], _ => .nil
  | _ :: _, [], h => by cases h
  | [], _ :: _, h => by cases h
  | s :: seps, t :: ts, h => by
    rw [List.map_cons, List.map_cons, List.cons.injEq] at h
    exact (derivedAll_symbols h.2).token (terminal_of_symbol h.1)

/-- A list is made longer by all members that stand behind it. -/
theorem extend_leftList {m : Nat} (hseps : seps.length ≤ 1)
    (hm : numbered? productions m =
      some ⟨key, .nonterminal key, (seps.map fun s => Sym.terminal s.spelling) ++ [x]⟩) :
    ∀ (as : List α) (members : List Tree) {tokens more : List Token} {t : Tree},
      (∀ a ∈ as, ∀ tokens : List Token, tokens.map Token.lexeme = ls a →
        ∃ t, Derived x tokens t ∧ Q a t) →
      Derived (.nonterminal key) tokens t →
      (∀ us, leftListOnto key us t = .ok (members ++ us)) →
      more.map Token.lexeme = as.flatMap (fun a => seps.map Lexeme.symbol ++ ls a) →
      ∃ t' ts, Derived (.nonterminal key) (tokens ++ more) t' ∧
        (∀ us, leftListOnto key us t' = .ok (members ++ ts ++ us)) ∧ List.Forall₂ Q as ts
  | [], members, tokens, more, t, _, ht, hlist, hmore => by
    obtain rfl : more = [] := by simpa using hmore
    exact ⟨t, [], by simpa using ht, by simpa using hlist, .nil⟩
  | a :: as, members, tokens, more, t, has, ht, hlist, hmore => by
    rw [List.flatMap_cons, List.append_assoc] at hmore
    obtain ⟨between, rest, rfl, hbetween, hrest⟩ := List.map_eq_append_iff.mp hmore
    obtain ⟨mine, rest, rfl, hmine, hrest⟩ := List.map_eq_append_iff.mp hrest
    obtain ⟨u, hu, hQ⟩ := has a List.mem_cons_self mine hmine
    have hlength : between.length = seps.length := by
      have := congrArg List.length hbetween
      simpa using this
    have hnode := Derived.node hm
      (.cons ht ((derivedAll_symbols hbetween).append (DerivedAll.singleton hu)))
    obtain ⟨t', ts, ht', hlist', hts⟩ := extend_leftList hseps hm as (members ++ [u])
      (fun b hb => has b (List.mem_cons_of_mem a hb)) hnode (fun us => by
        rw [nodeOf, leftListOnto_node ht.isKey (by rw [List.length_map]; omega), hlist]
        simp) hrest
    exact ⟨t', u :: ts, by simpa using ht', by simpa using hlist', .cons hQ hts⟩

/-- **A left-recursive list** over the tokens of its members, which are listed in their order. -/
theorem exists_leftList (n m : Nat) (key : String) (x : Sym) (seps : List Symbol)
    (ls : α → List Lexeme) (Q : α → Tree → Prop) (hseps : seps.length ≤ 1)
    (hn : numbered? productions n = some ⟨key, x, []⟩)
    (hm : numbered? productions m =
      some ⟨key, .nonterminal key, (seps.map fun s => Sym.terminal s.spelling) ++ [x]⟩)
    {a : α} {as : List α} (has : ∀ b ∈ a :: as, ∀ tokens : List Token,
      tokens.map Token.lexeme = ls b → ∃ t, Derived x tokens t ∧ Q b t)
    (htokens : tokens.map Token.lexeme =
      ls a ++ as.flatMap (fun b => seps.map Lexeme.symbol ++ ls b)) :
    ∃ t ts, Derived (.nonterminal key) tokens t ∧ leftList key t = .ok ts ∧
      List.Forall₂ Q (a :: as) ts := by
  obtain ⟨mine, rest, rfl, hmine, hrest⟩ := List.map_eq_append_iff.mp htokens
  obtain ⟨u, hu, hQ⟩ := has a List.mem_cons_self mine hmine
  have hnode := Derived.node hn (DerivedAll.singleton hu)
  obtain ⟨t, ts, ht, hlist, hts⟩ := extend_leftList hseps hm as [u]
    (fun b hb => has b (List.mem_cons_of_mem a hb)) hnode
    (fun us => by simp [nodeOf, leftListOnto]) hrest
  exact ⟨t, u :: ts, ht, by simpa [leftList] using hlist [], .cons hQ hts⟩

/-- Reading all members, each of which is read back. -/
theorem mapM_of_forall₂ {β γ : Type} {erase : β → γ} {f : Tree → Lowered β} {bs : List β}
    {ts : List Tree} (h : List.Forall₂ (fun b t => ∃ c, f t = .ok c ∧ erase c = erase b) bs ts) :
    ∃ cs, ts.mapM f = .ok cs ∧ cs.map erase = bs.map erase := by
  induction h with
  | nil => exact ⟨[], rfl, rfl⟩
  | cons hb _ ih =>
    obtain ⟨c, hc, hcb⟩ := hb
    obtain ⟨cs, hcs, hcsb⟩ := ih
    exact ⟨c :: cs, by rw [List.mapM_cons, hc, hcs]; rfl, by rw [List.map_cons, hcb, hcsb]; rfl⟩

theorem mapM_eq_self {β : Type} {f : Tree → Lowered Tree} {bs : List β} {ts : List Tree}
    (h : List.Forall₂ (fun _ t => f t = .ok t) bs ts) : ts.mapM f = .ok ts := by
  induction h with
  | nil => rfl
  | cons ht _ ih => rw [List.mapM_cons, ht, ih]; rfl

/-- The lexemes of scripts with one between them. -/
theorem lexemes_separated (between : Script) (s : Script) (ss : List Script) :
    lexemes (separated between (s :: ss)) =
      lexemes s ++ ss.flatMap fun t => lexemes between ++ lexemes t := by
  rw [separated, Script.lexemes_append]
  congr 1
  induction ss with
  | nil => rfl
  | cons t ss ih =>
    rw [List.flatMap_cons, List.flatMap_cons, Script.lexemes_append, Script.lexemes_append, ih]

/-! ## Symbols -/

theorem map_symbolOf?_leaves : ∀ {ts : List Token} {seps : List Symbol},
    ts.map Token.lexeme = seps.map Lexeme.symbol →
      (ts.map Tree.leaf).map symbolOf? = seps.map some
  | [], [], _ => rfl
  | _ :: _, [], h => by cases h
  | [], _ :: _, h => by cases h
  | t :: ts, s :: seps, h => by
    rw [List.map_cons, List.map_cons, List.cons.injEq] at h
    simp only [List.map_cons, symbolOf?_leaf h.1, map_symbolOf?_leaves h.2]

/-- A node of symbols alone. -/
theorem exists_symbols (n : Nat) (key : String) {s : Symbol} (ss : List Symbol)
    (hn : numbered? productions n =
      some ⟨key, .terminal s.spelling, ss.map fun u => .terminal u.spelling⟩)
    (h : tokens.map Token.lexeme = (s :: ss).map Lexeme.symbol) :
    ∃ ts, Derived (.nonterminal key) tokens (nodeOf n key ts) ∧
      ts.map symbolOf? = (s :: ss).map some :=
  ⟨_, Derived.node hn (derivedAll_symbols h), map_symbolOf?_leaves h⟩

/-- A node of one symbol. -/
theorem exists_symbol (n : Nat) (key : String) {s : Symbol}
    (hn : numbered? productions n = some ⟨key, .terminal s.spelling, []⟩)
    (h : tokens.map Token.lexeme = [.symbol s]) :
    ∃ t, Derived (.nonterminal key) tokens t ∧ onlySymbol? t = some s ∧
      (childrenOf t).head?.bind symbolOf? = some s := by
  obtain ⟨ts, ht, hts⟩ := exists_symbols n key [] hn h
  obtain ⟨u, rfl, hu⟩ := List.map_eq_singleton_iff.mp hts
  exact ⟨_, ht, hu, hu⟩

/-! ## Paths -/

/-- A path is read from the strings and points that it is written with. -/
theorem exists_path (p : Path) (h : tokens.map Token.lexeme = lexemes p.script) :
    ∃ t q, Derived (.nonterminal "STRING") tokens t ∧ readPath t = .ok q ∧
      q.unplaced = p.unplaced := by
  rw [Path.script, Path.parts, List.map_cons, lexemes_separated, List.flatMap_map] at h
  obtain ⟨t, ts, ht, hlist, hts⟩ := exists_leftList 28 29 "STRING"
    (.terminal "str") [.dot] (fun q : Part => lexemes [q.piece])
    (fun q t => ∀ parent, ∃ c, readPart parent t = .ok c ∧ c.unplaced = q.unplaced)
    (by decide) (by rfl) (by rfl) (fun q _ ts hts => by
      obtain ⟨tok, rfl, htok⟩ := List.map_eq_singleton_iff.mp hts
      obtain ⟨lexeme, range⟩ := tok
      obtain rfl : lexeme = .string q.value q.kind := htok
      exact ⟨_, Derived.leaf rfl, fun _ => ⟨_, rfl, rfl⟩⟩) h
  obtain ⟨cs, hcs, hparts⟩ := mapM_of_forall₂ (hts.imp fun _ _ hQ => hQ t)
  obtain ⟨c, cs, rfl, hc, hothers⟩ := List.map_eq_cons_iff.mp hparts
  refine ⟨t, ⟨c, cs⟩, ht, ?_, by rw [Path.unplaced, hc, hothers]; rfl⟩
  rw [readPath, hlist]
  simp only [bind, Except.bind, hcs]
  rfl

theorem readPathAt_eq {p : Path} (ht : Derived (.nonterminal "STRING") tokens t)
    (hp : readPath t = .ok p) (parent : Tree) : readPathAt parent t = .ok p := by
  rw [readPathAt, ht.expect]
  exact hp

/-! ## Values -/

/-- The signs before a value. -/
def signs (direction : Option Direction) (source : Bool) : List Symbol :=
  direction.toList.map Direction.sign ++ if source then [.caret] else []

theorem eq_none_of_signs : ∀ {direction : Option Direction} {source : Bool},
    signs direction source = [] → direction = none ∧ source = false
  | none, false, _ => ⟨rfl, rfl⟩
  | none, true, h => by cases h
  | some _, false, h => by cases h
  | some _, true, h => by cases h

theorem exists_valuePrefix : ∀ {direction : Option Direction} {source : Bool},
    signs direction source ≠ [] → tokens.map Token.lexeme = (signs direction source).map .symbol →
      ∃ t, Derived (.nonterminal "VALUE_PREFIX") tokens t ∧
        readValuePrefix t = .ok (direction, source)
  | none, false, hne, _ => absurd rfl hne
  | some .ascending, false, _, h => by
    obtain ⟨ts, ht, hts⟩ := exists_symbols 34 "VALUE_PREFIX" [] (by rfl) h
    exact ⟨_, ht, by simp only [readValuePrefix, nodeOf, childrenOf, hts]; rfl⟩
  | some .descending, false, _, h => by
    obtain ⟨ts, ht, hts⟩ := exists_symbols 35 "VALUE_PREFIX" [] (by rfl) h
    exact ⟨_, ht, by simp only [readValuePrefix, nodeOf, childrenOf, hts]; rfl⟩
  | none, true, _, h => by
    obtain ⟨ts, ht, hts⟩ := exists_symbols 36 "VALUE_PREFIX" [] (by rfl) h
    exact ⟨_, ht, by simp only [readValuePrefix, nodeOf, childrenOf, hts]; rfl⟩
  | some .ascending, true, _, h => by
    obtain ⟨ts, ht, hts⟩ := exists_symbols 37 "VALUE_PREFIX" [.caret] (by rfl) h
    exact ⟨_, ht, by simp only [readValuePrefix, nodeOf, childrenOf, hts]; rfl⟩
  | some .descending, true, _, h => by
    obtain ⟨ts, ht, hts⟩ := exists_symbols 38 "VALUE_PREFIX" [.caret] (by rfl) h
    exact ⟨_, ht, by simp only [readValuePrefix, nodeOf, childrenOf, hts]; rfl⟩

theorem lexemes_value (v : Value) :
    lexemes v.script = (signs v.direction v.source).map Lexeme.symbol ++ lexemes v.path.script := by
  obtain ⟨direction, source, path, range⟩ := v
  match direction, source with
  | none, false => rfl
  | none, true => rfl
  | some _, false => rfl
  | some _, true => rfl

theorem exists_value (v : Value) (h : tokens.map Token.lexeme = lexemes v.script) :
    ∃ t w, Derived (.nonterminal "VALUE") tokens t ∧ readValue t = .ok w ∧
      w.unplaced = v.unplaced := by
  rw [lexemes_value] at h
  obtain ⟨before, rest, rfl, hbefore, hrest⟩ := List.map_eq_append_iff.mp h
  obtain ⟨u, q, hu, hq, hqp⟩ := exists_path v.path hrest
  by_cases hsigns : signs v.direction v.source = []
  · rw [hsigns, List.map_nil, List.map_eq_nil_iff] at hbefore
    have hbare := eq_none_of_signs hsigns
    have ht := Derived.node (n := 32) (p := ⟨"VALUE", .nonterminal "STRING", []⟩)
      (by rfl) (.singleton hu)
    refine ⟨_, ⟨none, false, q, (nodeOf 32 "VALUE" [u]).range⟩, by simpa [hbefore] using ht, ?_, ?_⟩
    · simp only [readValue, nodeOf, childrenOf]
      rw [readPathAt_eq hu hq]
      rfl
    · rw [Value.unplaced, Value.unplaced, hqp, hbare.1, hbare.2]
  · obtain ⟨b, hb, hread⟩ := exists_valuePrefix hsigns hbefore
    have ht := Derived.node (n := 33) (p := ⟨"VALUE", .nonterminal "VALUE_PREFIX",
      [.nonterminal "STRING"]⟩) (by rfl) (.cons hb (.singleton hu))
    refine ⟨_, ⟨v.direction, v.source, q, (nodeOf 33 "VALUE" [b, u]).range⟩, ht, ?_, ?_⟩
    · simp only [readValue, nodeOf, childrenOf]
      rw [hb.expect, readPathAt_eq hu hq, ok_bind, hread]
      rfl
    · rw [Value.unplaced, Value.unplaced, hqp]

/-! ## Predicates -/

theorem exists_values (v : Value) (vs : List Value)
    (h : tokens.map Token.lexeme = lexemes (Predicate.script (.values (v :: vs)))) :
    ∃ t p, Derived (.nonterminal "PREDICATIVE") tokens t ∧ readPredicate t = .ok p ∧
      p.unplaced = (Predicate.values (v :: vs)).unplaced := by
  rw [Predicate.script, List.map_cons, lexemes_separated, List.flatMap_map] at h
  obtain ⟨t, ts, ht, hlist, hts⟩ := exists_leftList 30 31 "VALUE_LIST"
    (.nonterminal "VALUE") [.comma] (fun w : Value => lexemes w.script)
    (fun w t => ∀ parent, ∃ c, (do readValue (← expect "VALUE" parent t)) = .ok c ∧
      c.unplaced = w.unplaced)
    (by decide) (by rfl) (by rfl) (fun w _ ts hts => by
      obtain ⟨u, c, hu, hc, hcw⟩ := exists_value w hts
      exact ⟨u, hu, fun parent => ⟨c, by rw [hu.expect, ok_bind, hc], hcw⟩⟩) h
  obtain ⟨cs, hcs, hvalues⟩ := mapM_of_forall₂ (hts.imp fun _ _ hQ => hQ t)
  have hnode := Derived.node (n := 25) (p := ⟨"PREDICATIVE", .nonterminal "VALUE_LIST", []⟩)
    (by rfl) (.singleton ht)
  refine ⟨_, .values cs, hnode, ?_, congrArg Predicate.values hvalues⟩
  simp only [readPredicate, nodeOf, childrenOf]
  rw [if_pos ht.isKey, hlist, ok_bind, hcs]
  rfl

/-- The paths of a collection, of which there is one at least. -/
theorem exists_collectionItems (p : Path) (ps : List Path)
    (h : tokens.map Token.lexeme =
      lexemes (separated [sym .comma, none] ((p :: ps).map Path.script))) :
    ∃ t qs, Derived (.nonterminal "COLLECTION_ITEM") tokens t ∧
      (do (← leftList "COLLECTION_ITEM" t).mapM (readPathAt t)) = .ok qs ∧
      qs.map Path.unplaced = (p :: ps).map Path.unplaced := by
  rw [List.map_cons, lexemes_separated, List.flatMap_map] at h
  obtain ⟨t, ts, ht, hlist, hts⟩ := exists_leftList 41 42 "COLLECTION_ITEM"
    (.nonterminal "STRING") [.comma] (fun q : Path => lexemes q.script)
    (fun q t => ∀ parent, ∃ c, readPathAt parent t = .ok c ∧ c.unplaced = q.unplaced)
    (by decide) (by rfl) (by rfl) (fun q _ ts hts => by
      obtain ⟨u, c, hu, hc, hcq⟩ := exists_path q hts
      exact ⟨u, hu, fun parent => ⟨c, readPathAt_eq hu hc parent, hcq⟩⟩) h
  obtain ⟨cs, hcs, hpaths⟩ := mapM_of_forall₂ (hts.imp fun _ _ hQ => hQ t)
  exact ⟨t, cs, ht, by rw [hlist, ok_bind, hcs], hpaths⟩

theorem exists_collection (ps : List Path)
    (h : tokens.map Token.lexeme = lexemes (Predicate.script (.collection ps))) :
    ∃ t p, Derived (.nonterminal "PREDICATIVE") tokens t ∧ readPredicate t = .ok p ∧
      p.unplaced = (Predicate.collection ps).unplaced := by
  rw [Predicate.script, Script.lexemes_sym, Script.lexemes_append] at h
  obtain ⟨opening, rest, rfl, hopening, hrest⟩ := List.map_eq_cons_iff.mp h
  obtain ⟨inner, closing, rfl, hinner, hclosing⟩ := List.map_eq_append_iff.mp hrest
  obtain ⟨last, rfl, hlast⟩ := List.map_eq_singleton_iff.mp hclosing
  have hlast := DerivedAll.nil.token (terminal_of_symbol hlast)
  obtain ⟨c, qs, hc, hread, hqs⟩ : ∃ c qs, Derived (.nonterminal "COLLECTION")
      (opening :: (inner ++ [last])) c ∧ readCollection c = .ok qs ∧
        qs.map Path.unplaced = ps.map Path.unplaced := by
    cases ps with
    | nil =>
      obtain rfl : inner = [] := List.map_eq_nil_iff.mp hinner
      exact ⟨_, [],
        Derived.node (n := 39) (p := ⟨"COLLECTION", .terminal "\x7b", [.terminal "\x7d"]⟩)
        (by rfl) (hlast.token (terminal_of_symbol hopening)), rfl, rfl⟩
    | cons p ps =>
      obtain ⟨u, qs, hu, hread, hqs⟩ := exists_collectionItems p ps hinner
      refine ⟨_, qs, Derived.node (n := 40) (p := ⟨"COLLECTION", .terminal "\x7b",
        [.nonterminal "COLLECTION_ITEM", .terminal "\x7d"]⟩) (by rfl)
        ((DerivedAll.cons hu hlast).token (terminal_of_symbol hopening)), ?_, hqs⟩
      simp only [readCollection, nodeOf, childrenOf]
      rw [hu.expect, ok_bind, hread]
  have hnode := Derived.node (n := 26) (p := ⟨"PREDICATIVE", .nonterminal "COLLECTION", []⟩)
    (by rfl) (.singleton hc)
  refine ⟨_, .collection qs, hnode, ?_, congrArg Predicate.collection hqs⟩
  simp only [readPredicate, nodeOf, childrenOf]
  rw [hc.isKey_of_ne (by decide), if_neg (by simp), if_pos hc.isKey, hread]
  rfl

/-- A bracket of either shape. -/
theorem exists_bracket (n m : Nat) (key : String) (included excluded : Symbol)
    (hne : excluded ≠ included)
    (hn : numbered? productions n = some ⟨key, .terminal included.spelling, []⟩)
    (hm : numbered? productions m = some ⟨key, .terminal excluded.spelling, []⟩) (b : Bool)
    (h : tokens.map Token.lexeme = [.symbol (if b then included else excluded)]) :
    ∃ t, Derived (.nonterminal key) tokens t ∧
      ∀ parent, readBracket key included excluded parent t = .ok b := by
  cases b with
  | true =>
    obtain ⟨t, ht, _, hsymbol⟩ := exists_symbol n key hn h
    refine ⟨t, ht, fun parent => ?_⟩
    rw [readBracket, ht.expect, ok_bind, hsymbol]
    exact if_pos rfl
  | false =>
    obtain ⟨t, ht, _, hsymbol⟩ := exists_symbol m key hm h
    refine ⟨t, ht, fun parent => ?_⟩
    rw [readBracket, ht.expect, ok_bind, hsymbol]
    exact (if_neg hne).trans (if_pos rfl)

theorem exists_range (r : RangeLiteral) (h : tokens.map Token.lexeme = lexemes r.script) :
    ∃ t s, Derived (.nonterminal "RANGE") tokens t ∧ readRange t = .ok s ∧
      s.unplaced = r.unplaced := by
  obtain ⟨first, last, brackets⟩ := r
  cases brackets with
  | none =>
    rw [RangeLiteral.script, Script.lexemes_append, Script.lexemes_sym] at h
    obtain ⟨before, rest, rfl, hbefore, hrest⟩ := List.map_eq_append_iff.mp h
    obtain ⟨dots, after, rfl, hdots, hafter⟩ := List.map_eq_cons_iff.mp hrest
    obtain ⟨u, p, hu, hp, hpf⟩ := exists_path first hbefore
    obtain ⟨v, q, hv, hq, hql⟩ := exists_path last hafter
    have ht := Derived.node (n := 43)
      (p := ⟨"RANGE", .nonterminal "STRING", [.terminal "..", .nonterminal "STRING"]⟩)
      (by rfl)
      (.cons hu ((DerivedAll.singleton hv).token (terminal_of_symbol hdots)))
    refine ⟨_, ⟨p, q, none⟩, ht, ?_, by rw [RangeLiteral.unplaced, hpf, hql]; rfl⟩
    simp only [readRange, nodeOf, childrenOf]
    rw [readPathAt_eq hu hp, readPathAt_eq hv hq]
    rfl
  | some b =>
    obtain ⟨includeBegin, includeEnd⟩ := b
    rw [RangeLiteral.script, Script.lexemes_sym, Script.lexemes_append, Script.lexemes_sym,
      Script.lexemes_append] at h
    obtain ⟨opening, rest, rfl, hopening, hrest⟩ := List.map_eq_cons_iff.mp h
    obtain ⟨before, rest, rfl, hbefore, hrest⟩ := List.map_eq_append_iff.mp hrest
    obtain ⟨comma, rest, rfl, hcomma, hrest⟩ := List.map_eq_cons_iff.mp hrest
    obtain ⟨after, closing, rfl, hafter, hclosing⟩ := List.map_eq_append_iff.mp hrest
    obtain ⟨u, p, hu, hp, hpf⟩ := exists_path first hbefore
    obtain ⟨v, q, hv, hq, hql⟩ := exists_path last hafter
    have hopening : [opening].map Token.lexeme = _ := congrArg (fun l => [l]) hopening
    obtain ⟨o, ho, hopen⟩ := exists_bracket 45 46 "RANGE_BEGIN" .lBracket .lParen (by decide)
      (by rfl) (by rfl) includeBegin hopening
    obtain ⟨c, hc, hclose⟩ := exists_bracket 47 48 "RANGE_END" .rBracket .rParen (by decide)
      (by rfl) (by rfl) includeEnd hclosing
    have ht := Derived.node (n := 44) (p := ⟨"RANGE", .nonterminal "RANGE_BEGIN",
      [.nonterminal "STRING", .terminal ",", .nonterminal "STRING", .nonterminal "RANGE_END"]⟩)
      (by rfl) (.cons ho (.cons hu
        ((DerivedAll.cons hv (.singleton hc)).token (terminal_of_symbol hcomma))))
    refine ⟨_, ⟨p, q, some ⟨includeBegin, includeEnd⟩⟩, ht, ?_, by
      rw [RangeLiteral.unplaced, hpf, hql]; rfl⟩
    simp only [readRange, nodeOf, childrenOf]
    rw [hopen, hclose, readPathAt_eq hu hp, readPathAt_eq hv hq]
    rfl

/-- What can be said of the lists in a predicate: there is no empty list of values. -/
def Predicate.IsComplete : Predicate → Prop
  | values vs => vs ≠ []
  | collection _ | range _ => True

theorem exists_predicate {p : Predicate} (hp : p.IsComplete)
    (h : tokens.map Token.lexeme = lexemes p.script) :
    ∃ t q, Derived (.nonterminal "PREDICATIVE") tokens t ∧ readPredicate t = .ok q ∧
      q.unplaced = p.unplaced := by
  match p, hp with
  | .values (v :: vs), _ => exact exists_values v vs h
  | .collection ps, _ => exact exists_collection ps h
  | .range r, _ =>
    obtain ⟨u, s, hu, hs, hsr⟩ := exists_range r h
    have ht := Derived.node (n := 27) (p := ⟨"PREDICATIVE", .nonterminal "RANGE", []⟩)
      (by rfl) (.singleton hu)
    refine ⟨_, .range s, ht, ?_, congrArg Predicate.range hsr⟩
    simp only [readPredicate, nodeOf, childrenOf]
    rw [hu.isKey_of_ne (by decide), if_neg (by simp), hu.isKey_of_ne (by decide), if_neg (by simp),
      if_pos hu.isKey, hs]
    rfl

/-! ## Phrases -/

theorem exists_family (f : Family) (h : tokens.map Token.lexeme = [.symbol f.symbol]) :
    ∃ t, Derived (.nonterminal "FAMILY") tokens t ∧ readFamily t = .ok f := by
  have hsymbol : ∃ t, Derived (.nonterminal "FAMILY") tokens t ∧ onlySymbol? t = some f.symbol := by
    cases f
    case equal => exact (exists_symbol 19 _ (by rfl) h).imp fun _ h => ⟨h.1, h.2.1⟩
    case gt => exact (exists_symbol 20 _ (by rfl) h).imp fun _ h => ⟨h.1, h.2.1⟩
    case gte => exact (exists_symbol 21 _ (by rfl) h).imp fun _ h => ⟨h.1, h.2.1⟩
    case lt => exact (exists_symbol 22 _ (by rfl) h).imp fun _ h => ⟨h.1, h.2.1⟩
    case lte => exact (exists_symbol 23 _ (by rfl) h).imp fun _ h => ⟨h.1, h.2.1⟩
    case similar =>
      exact (exists_symbol 24 _ (by rfl) h).imp fun _ h => ⟨h.1, h.2.1⟩
  obtain ⟨t, ht, hs⟩ := hsymbol
  refine ⟨t, ht, ?_⟩
  rw [readFamily, hs]
  cases f <;> rfl

theorem exists_direction (d : Direction) (range : Span)
    (h : tokens.map Token.lexeme = lexemes (Relation.unary d range).script) :
    ∃ t, Derived (.nonterminal "UNARY_FAMILY") tokens t ∧ readUnary t = .ok d := by
  cases d with
  | ascending =>
    obtain ⟨t, ht, hs, _⟩ := exists_symbol 50 "UNARY_FAMILY" (s := .tildePlus)
      (by rfl) h
    exact ⟨t, ht, by rw [readUnary, hs]⟩
  | descending =>
    obtain ⟨t, ht, hs, _⟩ := exists_symbol 51 "UNARY_FAMILY" (s := .tildeMinus)
      (by rfl) h
    exact ⟨t, ht, by rw [readUnary, hs]⟩

theorem exists_subject (p : Path) (h : tokens.map Token.lexeme = lexemes p.script) :
    ∃ t q, Derived (.nonterminal "SUBJECT") tokens t ∧
      (∀ parent, readSubject parent t = .ok q) ∧ q.unplaced = p.unplaced := by
  obtain ⟨u, q, hu, hq, hqp⟩ := exists_path p h
  have ht := Derived.node (n := 18) (p := ⟨"SUBJECT", .nonterminal "STRING", []⟩)
    (by rfl) (.singleton hu)
  refine ⟨_, q, ht, fun parent => ?_, hqp⟩
  rw [readSubject, ht.expect, ok_bind]
  exact readPathAt_eq hu hq _

/-- What can be said of the lists in a relation. -/
def Relation.IsComplete : Relation → Prop
  | binary _ predicate _ => predicate.IsComplete
  | unary .. => True

theorem exists_phrase (p : Phrase) (hp : ∀ r, p.relation = some r → r.IsComplete)
    (h : tokens.map Token.lexeme = lexemes p.script) :
    ∃ t q, Derived (.nonterminal "SFP") tokens t ∧ readPhrase t = .ok q ∧
      q.unplaced = p.unplaced := by
  obtain ⟨subject, relation, range⟩ := p
  rw [Phrase.script, Script.lexemes_append] at h
  obtain ⟨before, rest, rfl, hbefore, hrest⟩ := List.map_eq_append_iff.mp h
  obtain ⟨u, q, hu, hq, hqs⟩ := exists_subject subject hbefore
  rcases relation with _ | ⟨f, predicate, r⟩ | ⟨d, r⟩
  · obtain rfl : rest = [] := List.map_eq_nil_iff.mp hrest
    have ht := Derived.node (n := 16) (p := ⟨"SFP", .nonterminal "SUBJECT", []⟩)
      (by rfl) (.singleton hu)
    refine ⟨_, ⟨q, none, (nodeOf 16 "SFP" [u]).range⟩, by simpa using ht, ?_, by
      rw [Phrase.unplaced, hqs]; rfl⟩
    simp only [readPhrase, nodeOf, childrenOf]
    rw [hq]
    rfl
  · rw [Option.map_some, Option.getD_some, Relation.script, Script.lexemes_sym] at hrest
    obtain ⟨symbol, rest, rfl, hsymbol, hrest⟩ := List.map_eq_cons_iff.mp hrest
    have hsymbol : [symbol].map Token.lexeme = _ := congrArg (fun l => [l]) hsymbol
    obtain ⟨v, hv, hf⟩ := exists_family f hsymbol
    obtain ⟨w, c, hw, hc, hcp⟩ := exists_predicate (p := predicate) (hp _ rfl) hrest
    have ht := Derived.node (n := 17)
      (p := ⟨"SFP", .nonterminal "SUBJECT", [.nonterminal "FAMILY", .nonterminal "PREDICATIVE"]⟩)
      (by rfl) (.cons hu (.cons hv (.singleton hw)))
    refine ⟨_, ⟨q, some (.binary f c (v.range.cover w.range)),
      (nodeOf 17 "SFP" [u, v, w]).range⟩, ht, ?_, by
        rw [Phrase.unplaced, hqs, Option.map_some, Relation.unplaced, hcp]; rfl⟩
    simp only [readPhrase, nodeOf, childrenOf]
    rw [hq, ok_bind, hv.expect, ok_bind, hf, ok_bind, hw.expect, ok_bind, hc]
    rfl
  · obtain ⟨v, hv, hd⟩ := exists_direction d r hrest
    have ht := Derived.node (n := 49)
      (p := ⟨"SFP", .nonterminal "SUBJECT", [.nonterminal "UNARY_FAMILY"]⟩)
      (by rfl) (.cons hu (.singleton hv))
    refine ⟨_, ⟨q, some (.unary d v.range), (nodeOf 49 "SFP" [u, v]).range⟩, ht, ?_, by
      rw [Phrase.unplaced, hqs]; rfl⟩
    simp only [readPhrase, nodeOf, childrenOf]
    rw [hq, ok_bind, hv.expect, ok_bind, hd]
    rfl

/-! ## Elements and items -/

theorem exists_mark (m : Mark) (h : tokens.map Token.lexeme = [.symbol m.symbol]) :
    ∃ t, Derived (.nonterminal "ELEMENT_PREFIX") tokens t ∧ readMark t = .ok m := by
  have hsymbol : ∃ t, Derived (.nonterminal "ELEMENT_PREFIX") tokens t ∧
      onlySymbol? t = some m.symbol := by
    cases m
    case author => exact (exists_symbol 10 _ (by rfl) h).imp fun _ h => ⟨h.1, h.2.1⟩
    case topic => exact (exists_symbol 11 _ (by rfl) h).imp fun _ h => ⟨h.1, h.2.1⟩
    case tag => exact (exists_symbol 12 _ (by rfl) h).imp fun _ h => ⟨h.1, h.2.1⟩
  obtain ⟨t, ht, hs⟩ := hsymbol
  refine ⟨t, ht, ?_⟩
  rw [readMark, hs]
  cases m <;> rfl

/-- What can be said of the lists in an item: it has a phrase, and no list of values is empty. -/
def Item.IsComplete (i : Item) : Prop :=
  i.element.phrases ≠ [] ∧ ∀ p ∈ i.element.phrases, ∀ r, p.relation = some r → r.IsComplete

theorem exists_phrases (p : Phrase) (ps : List Phrase)
    (hps : ∀ q ∈ p :: ps, ∀ r, q.relation = some r → r.IsComplete)
    (h : tokens.map Token.lexeme = lexemes (separated [sym .pipe] ((p :: ps).map Phrase.script))) :
    ∃ t qs, Derived (.nonterminal "ELEMENT_ITEM") tokens t ∧
      (∀ parent, readPhrases parent t = .ok qs) ∧
      qs.map Phrase.unplaced = (p :: ps).map Phrase.unplaced := by
  rw [List.map_cons, lexemes_separated, List.flatMap_map] at h
  obtain ⟨t, ts, ht, hlist, hts⟩ := exists_leftList 13 14 "ELEMENT_ITEM"
    (.nonterminal "SFP") [.pipe] (fun q : Phrase => lexemes q.script)
    (fun q t => ∀ parent, ∃ c, (do readPhrase (← expect "SFP" parent t)) = .ok c ∧
      c.unplaced = q.unplaced)
    (by decide) (by rfl) (by rfl) (fun q hq ts hts => by
      obtain ⟨u, c, hu, hc, hcq⟩ := exists_phrase q (hps q hq) hts
      exact ⟨u, hu, fun parent => ⟨c, by rw [hu.expect, ok_bind, hc], hcq⟩⟩) h
  obtain ⟨cs, hcs, hphrases⟩ := mapM_of_forall₂ (hts.imp fun _ _ hQ => hQ t)
  refine ⟨t, cs, ht, fun parent => ?_, hphrases⟩
  rw [readPhrases, ht.expect, ok_bind, hlist, ok_bind, hcs]

theorem exists_element (e : Element) (hne : e.phrases ≠ [])
    (hps : ∀ p ∈ e.phrases, ∀ r, p.relation = some r → r.IsComplete)
    (h : tokens.map Token.lexeme = lexemes e.script) :
    ∃ t f, Derived (.nonterminal "ELEMENT") tokens t ∧ readElement t = .ok f ∧
      f.unplaced = e.unplaced := by
  obtain ⟨mark, phrases, range⟩ := e
  obtain ⟨p, ps, rfl⟩ := List.exists_cons_of_ne_nil hne
  rw [Element.script, Script.lexemes_append] at h
  obtain ⟨before, rest, rfl, hbefore, hrest⟩ := List.map_eq_append_iff.mp h
  obtain ⟨u, qs, hu, hread, hqs⟩ := exists_phrases p ps hps hrest
  cases mark with
  | none =>
    obtain rfl : before = [] := List.map_eq_nil_iff.mp hbefore
    have ht := Derived.node (n := 8) (p := ⟨"ELEMENT", .nonterminal "ELEMENT_ITEM", []⟩)
      (by rfl) (.singleton hu)
    refine ⟨_, ⟨none, qs, (nodeOf 8 "ELEMENT" [u]).range⟩, ht, ?_, by
      rw [Element.unplaced, hqs]; rfl⟩
    simp only [readElement, nodeOf, childrenOf]
    rw [hread]
    rfl
  | some m =>
    obtain ⟨v, hv, hm⟩ := exists_mark m hbefore
    have ht := Derived.node (n := 9)
      (p := ⟨"ELEMENT", .nonterminal "ELEMENT_PREFIX", [.nonterminal "ELEMENT_ITEM"]⟩)
      (by rfl) (.cons hv (.singleton hu))
    refine ⟨_, ⟨some m, qs, (nodeOf 9 "ELEMENT" [v, u]).range⟩, ht, ?_, by
      rw [Element.unplaced, hqs]; rfl⟩
    simp only [readElement, nodeOf, childrenOf]
    rw [hv.expect, ok_bind, hm, ok_bind, hread]
    rfl

/-- The marks before an item, and the number of its production. -/
def itemMarks (exclude source : Bool) : List Symbol :=
  (if exclude then [.minus] else []) ++ if source then [.caret] else []

@[inherit_doc itemMarks]
def itemProduction (exclude source : Bool) : Nat :=
  match exclude, source with
  | false, false => 4
  | false, true => 5
  | true, false => 6
  | true, true => 7

theorem numbered?_itemProduction : ∀ exclude source, ∃ p : Grammar.Production,
    numbered? productions (itemProduction exclude source) = some p ∧ p.key = "SEQUENCE_ITEM" ∧
      p.body = (itemMarks exclude source).map (fun s => Sym.terminal s.spelling) ++
        [.nonterminal "ELEMENT"]
  | false, false => ⟨⟨"SEQUENCE_ITEM", .nonterminal "ELEMENT", []⟩, rfl, rfl, rfl⟩
  | false, true => ⟨⟨"SEQUENCE_ITEM", .terminal "^", [.nonterminal "ELEMENT"]⟩, rfl, rfl, rfl⟩
  | true, false => ⟨⟨"SEQUENCE_ITEM", .terminal "-", [.nonterminal "ELEMENT"]⟩, rfl, rfl, rfl⟩
  | true, true => ⟨⟨"SEQUENCE_ITEM", .terminal "-", [.terminal "^", .nonterminal "ELEMENT"]⟩,
    rfl, rfl, rfl⟩

theorem readMarks_itemMarks (node : Tree) {marks : List Tree} {exclude source : Bool}
    (h : marks.map symbolOf? = (itemMarks exclude source).map some) :
    readMarks node marks = .ok (exclude, source) := by
  rw [readMarks, h]
  cases exclude <;> cases source <;> rfl

theorem lexemes_item (i : Item) : lexemes i.script =
    (itemMarks i.exclude i.source).map Lexeme.symbol ++ lexemes i.element.script := by
  obtain ⟨exclude, source, element, range⟩ := i
  cases exclude <;> cases source <;> rfl

/-- **An item is read** from the tokens that it is written with. -/
theorem exists_item (i : Item) (hi : i.IsComplete)
    (h : tokens.map Token.lexeme = lexemes i.script) :
    ∃ t j, Derived (.nonterminal "SEQUENCE_ITEM") tokens t ∧ readItem t = .ok j ∧
      j.unplaced = i.unplaced := by
  rw [lexemes_item] at h
  obtain ⟨marks, rest, rfl, hmarks, hrest⟩ := List.map_eq_append_iff.mp h
  obtain ⟨u, e, hu, he, hei⟩ := exists_element i.element hi.1 hi.2 hrest
  obtain ⟨p, hp, hkey, hbody⟩ := numbered?_itemProduction i.exclude i.source
  have ht := Derived.node hp (hbody ▸ (derivedAll_symbols hmarks).append (.singleton hu))
  rw [hkey] at ht
  refine ⟨_, ⟨i.exclude, i.source, e, (nodeOf (itemProduction i.exclude i.source) "SEQUENCE_ITEM"
    (marks.map Tree.leaf ++ [u])).range⟩, ht, ?_, by rw [Item.unplaced, hei]; rfl⟩
  simp only [readItem, nodeOf, childrenOf, List.getLast?_concat, List.dropLast_concat]
  rw [hu.expect, ok_bind, he, ok_bind, readMarks_itemMarks _ (map_symbolOf?_leaves hmarks)]
  rfl

/-! ## Queries -/

/-- **A query is parsed and read back** from the tokens that it is written with: each node of an
item is read as the item that was written, but for the ranges. -/
theorem parse_script {items : List Item} (hne : items ≠ []) (hitems : ∀ i ∈ items, i.IsComplete)
    (h : tokens.map Token.lexeme = lexemes (script items)) :
    ∃ t nodes, grammar.parse tokens = ⟨some t, [], []⟩ ∧ itemNodes t = .ok nodes ∧
      List.Forall₂ (fun i node => ∃ j, readItem node = .ok j ∧ j.unplaced = i.unplaced)
        items nodes := by
  obtain ⟨i, is, rfl⟩ := List.exists_cons_of_ne_nil hne
  rw [script, List.map_cons, lexemes_separated, List.flatMap_map] at h
  obtain ⟨t, ts, ht, hlist, hts⟩ := exists_leftList 1 2 "SEQUENCE"
    (.nonterminal "SEQUENCE_ITEM") [] (fun i : Item => lexemes i.script)
    (fun i t => (∀ parent, expect "SEQUENCE_ITEM" parent t = .ok t) ∧
      ∃ j, readItem t = .ok j ∧ j.unplaced = i.unplaced)
    (by decide) (by rfl) (by rfl) (fun i hi ts hts => by
      obtain ⟨u, j, hu, hj, hji⟩ := exists_item i (hitems i hi) hts
      exact ⟨u, hu, hu.expect, j, hj, hji⟩) h
  have hnodes := mapM_eq_self (hts.imp fun _ _ hQ => hQ.1 t)
  exact ⟨t, ts, parse_eq_of_derived ht, by rw [itemNodes, hlist, ok_bind, hnodes],
    hts.imp fun _ _ hQ => hQ.2⟩

end PixQuery.Query
