import PixQuery.Proofs.Query.Lossless
import PixQuery.Proofs.Query.Parts

/-!
# The strings of a query and what stands in front of them

Items are joined by an ampersand or by nothing, and the tree of a query tells by which. Written one
behind the other with what joins them, its items give the tokens again, but for slashes, which are
bars. So each string of an item is a token, and the tokens before it are known from the items: those
of the items before, those of the phrases before in its own, and so on inwards.

Results:
* `exists_joints`: the items of a query are written as its tokens, with what joins them.
* `StandsIn.exists_token`: a string of what is written is a token, with what is written in front of
  it in front.
* `StandsIn.separated`: a string of a member stands in the list, behind the members before.
* `StandsIn.phrase`, `StandsIn.item`: a string of a phrase stands in the item, and so in the query.
-/

namespace PixQuery

/-- The symbol, with a bar for a slash. -/
def Symbol.barred : Symbol → Symbol
  | slash => pipe
  | s => s

/-- The lexeme, with a bar for a slash. -/
def Lexeme.barred : Lexeme → Lexeme
  | string value kind => string value kind
  | symbol s => symbol s.barred

/-- Whether the lexeme is a string. -/
def Lexeme.isString : Lexeme → Bool
  | string .. => true
  | symbol _ => false

theorem Lexeme.barred_eq_string {l : Lexeme} {value : String} {kind : StringKind}
    (h : l.barred = string value kind) : l = string value kind := by
  cases l with
  | string => exact h
  | symbol => cases h

namespace Query

open Grammar (Sym)
open Script (lexemes sym separated)

variable {t : Tree} {ls ls' : List Lexeme} {ps ps' : List Part} {q : Part}

/-! ## What joins the items -/

/-- The nodes of the items of a query, in front of `done`, and whether an ampersand stands before
each. -/
def jointsOnto (done : List (Bool × Tree)) : Tree → List (Bool × Tree)
  | .node _ _ [only] _ => (false, only) :: done
  | .node _ _ [rest, last] _ => jointsOnto ((false, last) :: done) rest
  | .node _ _ [rest, _, last] _ => jointsOnto ((true, last) :: done) rest
  | _ => done

/-- The items of a query, in the order of the text, and whether an ampersand stands before each. -/
def joinedItems (root : Tree) : List (Bool × Item) :=
  (jointsOnto [] root).filterMap fun n => (readItem n.2).toOption.map (n.1, ·)

/-- An ampersand, or nothing. -/
def joint (amp : Bool) : List Lexeme := if amp then [.symbol .amp] else []

/-- How items are written with what joins them. -/
def joined (js : List (Bool × Item)) : List Lexeme :=
  js.flatMap fun j => joint j.1 ++ lexemes j.2.script

/-! ## Ampersands -/

theorem not_mem_body_of_key_ne : ∀ p ∈ productions, p.key ≠ "SEQUENCE" →
    .nonterminal "SEQUENCE" ∉ p.body ∧ .terminal "&" ∉ p.body := by
  decide

mutual

/-- Ampersands stand between items only. -/
theorem amp_not_mem_tokens : ∀ {t : Tree}, t.IsDerivation productions →
    t.symbol ≠ .nonterminal "SEQUENCE" → t.symbol ≠ .terminal "&" →
      ∀ u ∈ t.tokens, u.lexeme ≠ .symbol .amp
  | .leaf v, _, _, hamp, u, hu, hlexeme => by
    obtain rfl := List.mem_singleton.mp hu
    exact hamp (congrArg Sym.terminal (terminal_of_symbol hlexeme))
  | .node n key children range, h, hkey, _, u, hu, hlexeme => by
    obtain ⟨⟨p, hp, rfl, hbody⟩, hchildren⟩ := h
    obtain ⟨hsequence, hamp⟩ := not_mem_body_of_key_ne p (Grammar.mem_of_numbered hp)
      fun heq => hkey (congrArg Sym.nonterminal heq)
    rw [← hbody] at hsequence hamp
    exact amp_not_mem_tokensOf hchildren hsequence hamp u hu hlexeme

@[inherit_doc amp_not_mem_tokens]
theorem amp_not_mem_tokensOf : ∀ {ts : List Tree}, Tree.AllDerivations productions ts →
    .nonterminal "SEQUENCE" ∉ ts.map Tree.symbol → .terminal "&" ∉ ts.map Tree.symbol →
      ∀ u ∈ Tree.tokensOf ts, u.lexeme ≠ .symbol .amp
  | [], _, _, _, _, hu => by cases hu
  | t :: ts, ⟨ht, hts⟩, hsequence, hamp, u, hu => by
    rw [List.map_cons, List.mem_cons, not_or] at hsequence hamp
    rcases List.mem_append.mp hu with hu | hu
    · exact amp_not_mem_tokens ht (Ne.symm hsequence.1) (Ne.symm hamp.1) u hu
    · exact amp_not_mem_tokensOf hts hsequence.2 hamp.2 u hu

end

theorem plain_of_amp_not_mem (h : .symbol .amp ∉ ls) : plain ls = ls.map Lexeme.barred := by
  have hfilter : ls.filter (· ≠ .symbol .amp) = ls :=
    List.filter_eq_self.mpr fun l hl => by simpa using fun heq : l = .symbol .amp => h (heq ▸ hl)
  rw [plain, hfilter]
  refine List.map_congr_left fun l _ => ?_
  cases l with
  | string => rfl
  | symbol s => cases s <;> rfl

/-- A part of a query is written as the tokens, with bars for slashes. -/
structure SpelledAs (tokens : List Token) (ls : List Lexeme) (ps : List Part) : Prop where
  lexemes : tokens.map (Lexeme.barred ∘ Token.lexeme) = ls
  parts : tokens.filterMap partOf? = ps

theorem SpelledAs.append {ts us : List Token} (h : SpelledAs ts ls ps) (h' : SpelledAs us ls' ps') :
    SpelledAs (ts ++ us) (ls ++ ls') (ps ++ ps') where
  lexemes := by rw [List.map_append, h.lexemes, h'.lexemes]
  parts := by rw [List.filterMap_append, h.parts, h'.parts]

/-- **An item is read**, and spelled as its tokens. -/
theorem exists_spelledItem (h : DerivedFrom (.nonterminal "SEQUENCE_ITEM") t) :
    ∃ i, readItem t = .ok i ∧ SpelledAs t.tokens (lexemes i.script) i.parts := by
  obtain ⟨i, hi, hwritten⟩ := exists_readItem h
  have hamp := amp_not_mem_tokens h.derivation (by rw [h.symbol]; decide) (by rw [h.symbol]; decide)
  refine ⟨i, hi, ?_, hwritten.parts⟩
  rw [← hwritten.lexemes, plain_of_amp_not_mem, List.map_map]
  intro hmem
  obtain ⟨u, hu, hlexeme⟩ := List.mem_map.mp hmem
  exact hamp u hu hlexeme

theorem joined_concat (js : List (Bool × Item)) (amp : Bool) (i : Item) :
    joined (js ++ [(amp, i)]) = joined js ++ (joint amp ++ lexemes i.script) := by
  simp [joined]

/-- A query is its only item, or a query with an item behind it. -/
theorem cases_sequence {n : Nat} {key : String} {first : Tree} {others : List Tree} {range : Span}
    (h : DerivedFrom (.nonterminal "SEQUENCE") (.node n key (first :: others) range)) :
    key = "SEQUENCE" ∧ ((others = [] ∧ DerivedFrom (.nonterminal "SEQUENCE_ITEM") first) ∨
      ∃ (amp : Bool) (tokens : List Token) (last : Tree), others = tokens.map Tree.leaf ++ [last] ∧
        tokens.map Token.lexeme = joint amp ∧ DerivedFrom (.nonterminal "SEQUENCE") first ∧
        DerivedFrom (.nonterminal "SEQUENCE_ITEM") last) := by
  obtain ⟨_, _, _, heq, body, hbody, hchildren⟩ := h.exists_children
  obtain ⟨-, rfl, rfl, -⟩ := Tree.node.inj heq
  refine ⟨rfl, ?_⟩
  have hbodies : bodiesOf "SEQUENCE" =
      listBodies "SEQUENCE" (.nonterminal "SEQUENCE_ITEM") [none, some .amp] := by decide
  rcases cases_list hbodies hbody hchildren with
    hone | ⟨sep, hsep, tokens, last, rfl, htokens, hfirst, hlast⟩
  · exact .inl hone
  · refine .inr ⟨sep.isSome, tokens, last, rfl, ?_, hfirst, hlast⟩
    rw [htokens]
    simp only [List.mem_cons, List.not_mem_nil, or_false] at hsep
    rcases hsep with rfl | rfl <;> rfl

theorem spelledAs_joint {amp : Bool} {tokens : List Token}
    (h : tokens.map Token.lexeme = joint amp) : SpelledAs tokens (joint amp) [] where
  lexemes := by
    rw [← List.map_map, h]
    cases amp <;> rfl
  parts := by
    cases amp with
    | false => rw [List.map_eq_nil_iff.mp h]; rfl
    | true =>
      obtain ⟨⟨lexeme, range⟩, rfl, hlexeme⟩ := List.map_eq_singleton_iff.mp h
      obtain rfl : lexeme = .symbol .amp := hlexeme
      rfl

theorem jointsOnto_node {amp : Bool} {tokens : List Token} (h : tokens.map Token.lexeme = joint amp)
    (n : Nat) (key : String) (first last : Tree) (range : Span) (done : List (Bool × Tree)) :
    jointsOnto done (.node n key (first :: (tokens.map Tree.leaf ++ [last])) range) =
      jointsOnto ((amp, last) :: done) first := by
  cases amp with
  | false =>
    rw [List.map_eq_nil_iff.mp h]
    simp [jointsOnto]
  | true =>
    obtain ⟨u, rfl, -⟩ := List.map_eq_singleton_iff.mp h
    simp [jointsOnto]

/-- The node is of the item, with the same in front of it. -/
def IsJointOf (n : Bool × Tree) (j : Bool × Item) : Prop :=
  DerivedFrom (.nonterminal "SEQUENCE_ITEM") n.2 ∧ n.1 = j.1 ∧ readItem n.2 = .ok j.2

theorem exists_jointsOnto : ∀ {t : Tree}, DerivedFrom (.nonterminal "SEQUENCE") t →
    ∃ ns js, (∀ done, jointsOnto done t = ns ++ done) ∧
      (∀ done, leftListOnto "SEQUENCE" done t = .ok (ns.map Prod.snd ++ done)) ∧
      List.Forall₂ IsJointOf ns js ∧ SpelledAs t.tokens (joined js) (js.flatMap fun j => j.2.parts)
  | .leaf _, h => by cases h.symbol
  | .node n key [] range, h => by
    obtain ⟨_, _, _, heq, body, hbody, hchildren⟩ := h.exists_children
    obtain ⟨-, -, rfl, -⟩ := Tree.node.inj heq
    cases hchildren
    exact absurd hbody (by decide)
  | .node n key (first :: others) range, h => by
    obtain ⟨rfl, ⟨rfl, hfirst⟩ | ⟨amp, tokens, last, rfl, htokens, hfirst, hlast⟩⟩ :=
      cases_sequence h
    · obtain ⟨i, hi, hspelled⟩ := exists_spelledItem hfirst
      refine ⟨[(false, first)], [(false, i)], fun _ => by simp [jointsOnto],
        fun _ => by simp [leftListOnto], .cons ⟨hfirst, rfl, hi⟩ .nil, ?_⟩
      simpa [Tree.tokens, Tree.tokensOf, joined, joint] using hspelled
    · obtain ⟨ns, js, hjoints, hlist, hread, hspelled⟩ := exists_jointsOnto hfirst
      obtain ⟨i, hi, hspelled'⟩ := exists_spelledItem hlast
      have hlength : tokens.length ≤ 1 := by
        have := congrArg List.length htokens
        cases amp <;> simp_all [joint]
      refine ⟨ns ++ [(amp, last)], js ++ [(amp, i)], fun done => ?_, fun done => ?_,
        List.rel_append hread (.cons ⟨hlast, rfl, hi⟩ .nil), ?_⟩
      · rw [jointsOnto_node htokens, hjoints, List.append_cons]
      · rw [leftListOnto_node hfirst.isKey (by simpa using hlength), hlist]
        simp
      · rw [joined_concat]
        simpa [Tree.tokens, Tree.tokensOf, Tree.tokensOf_append, tokensOf_leaves] using
          hspelled.append ((spelledAs_joint htokens).append hspelled')

theorem filterMap_joints {ns : List (Bool × Tree)} {js : List (Bool × Item)}
    (h : List.Forall₂ IsJointOf ns js) :
    (ns.filterMap fun n => (readItem n.2).toOption.map (n.1, ·)) = js := by
  induction h with
  | nil => rfl
  | @cons n j _ _ hn _ ih =>
    obtain ⟨-, hamp, hi⟩ := hn
    rw [List.filterMap_cons, hi, ih, hamp]
    rfl

/-- **The items of a query are written as its tokens**, with what joins them. -/
theorem exists_joints (h : DerivedFrom (.nonterminal "SEQUENCE") t) :
    (∃ nodes, itemNodes t = .ok nodes ∧
      nodes.mapM readItem = .ok ((joinedItems t).map Prod.snd)) ∧
    SpelledAs t.tokens (joined (joinedItems t)) ((joinedItems t).flatMap fun j => j.2.parts) := by
  obtain ⟨ns, js, hjoints, hlist, hread, hspelled⟩ := exists_jointsOnto h
  have hjs : joinedItems t = js := by
    rw [joinedItems, hjoints, List.append_nil, filterMap_joints hread]
  have hexpect : (ns.map Prod.snd).mapM (expect "SEQUENCE_ITEM" t) = .ok (ns.map Prod.snd) :=
    mapM_eq_self (List.forall₂_map_right_iff.mpr (hread.flip.imp fun _ n hn => hn.1.expect t))
  have hitems : (ns.map Prod.snd).mapM readItem = .ok (js.map Prod.snd) := by
    rw [Understood.mapM_eq_ok_iff, List.forall₂_map_left_iff, List.forall₂_map_right_iff]
    exact hread.imp fun n j hn => hn.2.2
  refine ⟨⟨ns.map Prod.snd, ?_, hjs ▸ hitems⟩, hjs ▸ hspelled⟩
  rw [itemNodes, leftList, hlist, List.append_nil, Understood.ok_bind, hexpect]

/-! ## Where strings stand -/

/-- There are as many strings among the lexemes as there are parts. -/
def Counted (ls : List Lexeme) (ps : List Part) : Prop := ls.countP Lexeme.isString = ps.length

/-- The string is one of what is written as `ls` and has the strings `ps`, and `front` stands in
front of it. -/
def StandsIn (q : Part) (front ls : List Lexeme) (ps : List Part) : Prop :=
  ∃ back before after, ls = front ++ .string q.value q.kind :: back ∧ ps = before ++ q :: after ∧
    Counted front before

theorem Counted.append (h : Counted ls ps) (h' : Counted ls' ps') :
    Counted (ls ++ ls') (ps ++ ps') := by
  rw [Counted, List.countP_append, List.length_append, h, h']

theorem counted_symbols : ∀ us : List Symbol, Counted (us.map .symbol) []
  | [] => rfl
  | _ :: us => counted_symbols us

theorem Counted.symbols_append (us : List Symbol) (h : Counted ls ps) :
    Counted (us.map .symbol ++ ls) ps := (counted_symbols us).append h

theorem Counted.append_symbols (us : List Symbol) (h : Counted ls ps) :
    Counted (ls ++ us.map .symbol) ps := List.append_nil ps ▸ h.append (counted_symbols us)

theorem counted_flatMap {α : Type} {f : α → List Lexeme} {g : α → List Part} : ∀ {as : List α},
    (∀ a ∈ as, Counted (f a) (g a)) → Counted (as.flatMap f) (as.flatMap g)
  | [], _ => rfl
  | _ :: _, h => (h _ List.mem_cons_self).append
    (counted_flatMap fun a ha => h a (List.mem_cons_of_mem _ ha))

variable {front : List Lexeme}

/-- Something more in front. -/
theorem StandsIn.append_left (h : StandsIn q front ls ps) (hc : Counted ls' ps') :
    StandsIn q (ls' ++ front) (ls' ++ ls) (ps' ++ ps) := by
  obtain ⟨back, before, after, rfl, rfl, hcount⟩ := h
  exact ⟨back, ps' ++ before, after, by simp, by simp, hc.append hcount⟩

/-- Something more behind. -/
theorem StandsIn.append_right (h : StandsIn q front ls ps) (ls' : List Lexeme) (ps' : List Part) :
    StandsIn q front (ls ++ ls') (ps ++ ps') := by
  obtain ⟨back, before, after, rfl, rfl, hcount⟩ := h
  exact ⟨back ++ ls', before, after ++ ps', by simp, by simp, hcount⟩

theorem StandsIn.symbols_append (us : List Symbol) (h : StandsIn q front ls ps) :
    StandsIn q (us.map .symbol ++ front) (us.map .symbol ++ ls) ps :=
  h.append_left (counted_symbols us)

theorem partOf?_string (value : String) (kind : StringKind) (range : Span) :
    partOf? ⟨.string value kind, range⟩ = some ⟨value, kind, range⟩ := rfl

theorem length_filterMap_partOf? : ∀ tokens : List Token, (tokens.filterMap partOf?).length =
    (tokens.map (Lexeme.barred ∘ Token.lexeme)).countP Lexeme.isString
  | [] => rfl
  | ⟨.string value kind, range⟩ :: tokens => by
    rw [List.filterMap_cons_some (partOf?_string value kind range), List.length_cons,
      length_filterMap_partOf? tokens, List.map_cons, List.countP_cons_of_pos rfl]
  | ⟨.symbol u, range⟩ :: tokens => by
    rw [List.filterMap_cons_none rfl, length_filterMap_partOf? tokens, List.map_cons,
      List.countP_cons_of_neg Bool.false_ne_true]

/-- **A string of what is written is a token**, with what is written in front of it in front. -/
theorem StandsIn.exists_token {tokens : List Token} (h : StandsIn q front ls ps)
    (hs : SpelledAs tokens ls ps) :
    ∃ before after, tokens = before ++ ⟨.string q.value q.kind, q.range⟩ :: after ∧
      before.map (Lexeme.barred ∘ Token.lexeme) = front := by
  obtain ⟨back, before, after, rfl, rfl, hcount⟩ := h
  obtain ⟨ts, rest, rfl, hfront, hrest⟩ := List.map_eq_append_iff.mp hs.lexemes
  obtain ⟨⟨lexeme, range⟩, us, rfl, hlexeme, -⟩ := List.map_eq_cons_iff.mp hrest
  obtain rfl : lexeme = .string q.value q.kind := Lexeme.barred_eq_string hlexeme
  have hparts := hs.parts
  rw [List.filterMap_append, List.filterMap_cons_some (partOf?_string q.value q.kind range)]
    at hparts
  have hlength : (ts.filterMap partOf?).length = before.length := by
    rw [length_filterMap_partOf?, hfront, hcount]
  have hq : ⟨q.value, q.kind, range⟩ = q := (List.cons.inj (List.append_inj hparts hlength).2).1
  obtain rfl : range = q.range := congrArg Part.range hq
  exact ⟨ts, us, rfl, hfront⟩

/-! ## Lists -/

section lists

variable {α : Type} (script : α → Script) (parts : α → List Part) (between : Script)
  {as bs : List α}

theorem append_flatMap_append (l : α → List Lexeme) (ls : List Lexeme) : ∀ (a : α) (as : List α),
    l a ++ as.flatMap (fun b => ls ++ l b) ++ ls = (a :: as).flatMap fun b => l b ++ ls
  | a, [] => by simp
  | a, b :: as => by
    have ih := append_flatMap_append l ls b as
    rw [List.flatMap_cons, List.flatMap_cons, ← ih]
    simp

/-- Scripts with another between them, split at one of them. -/
theorem lexemes_separated_append (between s : Script) : ∀ ss ss' : List Script,
    lexemes (separated between (ss ++ s :: ss')) =
      ss.flatMap (fun t => lexemes t ++ lexemes between) ++
        (lexemes s ++ ss'.flatMap fun t => lexemes between ++ lexemes t)
  | [], ss' => lexemes_separated between s ss'
  | t :: ss, ss' => by
    rw [List.cons_append, lexemes_separated, ← append_flatMap_append]
    simp

theorem counted_separated (h : ∀ a ∈ as, Counted (lexemes (script a)) (parts a))
    (hbetween : Counted (lexemes between) []) :
    Counted (lexemes (separated between (as.map script))) (as.flatMap parts) := by
  cases as with
  | nil => rfl
  | cons a as =>
    rw [List.map_cons, lexemes_separated, List.flatMap_cons, List.flatMap_map]
    exact (h a List.mem_cons_self).append (counted_flatMap fun b hb =>
      hbetween.append (h b (List.mem_cons_of_mem a hb)))

/-- **A string of a member stands in the list**, behind the members before and what separates
them. -/
theorem StandsIn.separated {a : α} (as bs : List α)
    (h : StandsIn q front (lexemes (script a)) (parts a))
    (has : ∀ b ∈ as, Counted (lexemes (script b)) (parts b))
    (hbetween : Counted (lexemes between) []) :
    StandsIn q (as.flatMap (fun b => lexemes (script b) ++ lexemes between) ++ front)
      (lexemes (Script.separated between ((as ++ a :: bs).map script)))
      ((as ++ a :: bs).flatMap parts) := by
  rw [List.map_append, List.map_cons, lexemes_separated_append, List.flatMap_append,
    List.flatMap_cons, List.flatMap_map]
  refine (h.append_right _ _).append_left (counted_flatMap fun b hb => ?_)
  exact List.append_nil (parts b) ▸ (has b hb).append hbetween

end lists

/-! ## Paths and values -/

/-- The strings in front of another in a path, with their points. -/
def points (qs : List Part) : List Lexeme :=
  qs.flatMap fun q => [.string q.value q.kind, .symbol .dot]

theorem counted_path (p : Path) : Counted (lexemes p.script) p.parts := by
  have h := counted_separated (fun q : Part => [q.piece]) (fun q => [q]) [sym .dot]
    (fun q (_ : q ∈ p.parts) => rfl) rfl
  rwa [List.flatMap_singleton'] at h

/-- A string of a path stands behind the ones before. -/
theorem standsIn_path {p : Path} {xs ys : List Part} (h : p.parts = xs ++ q :: ys) :
    StandsIn q (points xs) (lexemes p.script) p.parts := by
  have hq : StandsIn q [] (lexemes [q.piece]) [q] := ⟨[], [], [], rfl, rfl, rfl⟩
  have hpath := hq.separated (fun q : Part => [q.piece]) (fun q => [q]) [sym .dot] xs ys
    (fun _ _ => rfl) rfl
  rw [← h, List.flatMap_singleton', List.append_nil] at hpath
  exact hpath

theorem counted_value (v : Value) : Counted (lexemes v.script) v.path.parts := by
  rw [lexemes_value]
  exact (counted_path v.path).symbols_append _

theorem counted_predicate (p : Predicate) : Counted (lexemes p.script) p.parts := by
  cases p with
  | values vs => exact counted_separated _ _ _ (fun v _ => counted_value v) rfl
  | collection ps =>
    rw [Predicate.script, Script.lexemes_sym, Script.lexemes_append]
    exact .symbols_append [.lBrace] (.append_symbols [.rBrace]
      (counted_separated _ _ _ (fun p _ => counted_path p) rfl))
  | range r =>
    obtain ⟨first, last, brackets⟩ := r
    cases brackets with
    | none =>
      rw [Predicate.script, RangeLiteral.script, Script.lexemes_append, Script.lexemes_sym]
      exact (counted_path first).append (.symbols_append [.dotDot] (counted_path last))
    | some b =>
      rw [Predicate.script, RangeLiteral.script, Script.lexemes_sym, Script.lexemes_append,
        Script.lexemes_sym, Script.lexemes_append]
      refine .symbols_append [if b.includeBegin then .lBracket else .lParen] ?_
      exact (counted_path first).append
        (.symbols_append [.comma] (.append_symbols [_] (counted_path last)))

theorem counted_phrase (p : Phrase) : Counted (lexemes p.script) p.parts := by
  obtain ⟨subject, relation, range⟩ := p
  rw [Phrase.script, Script.lexemes_append]
  refine (counted_path subject).append ?_
  cases relation with
  | none => rfl
  | some r =>
    cases r with
    | binary family predicate _ =>
      exact .symbols_append [family.symbol] (counted_predicate predicate)
    | unary direction _ => cases direction <;> rfl

theorem counted_element (e : Element) :
    Counted (lexemes e.script) (e.phrases.flatMap Phrase.parts) := by
  obtain ⟨mark, phrases, range⟩ := e
  rw [Element.script, Script.lexemes_append]
  have hphrases := counted_separated Phrase.script Phrase.parts [sym .pipe]
    (fun p (_ : p ∈ phrases) => counted_phrase p) rfl
  cases mark with
  | none => exact hphrases
  | some m => exact hphrases.symbols_append [m.symbol]

theorem counted_item (i : Item) : Counted (lexemes i.script) i.parts := by
  rw [lexemes_item]
  exact (counted_element i.element).symbols_append _

/-- The bracket at the front of a range. -/
def openingOf (brackets : Option Brackets) : List Symbol :=
  brackets.toList.map fun b => if b.includeBegin then .lBracket else .lParen

/-- A string of a value stands among the values. -/
theorem standsIn_values {as bs : List Value} {v : Value} {xs ys : List Part}
    (h : v.path.parts = xs ++ q :: ys) :
    StandsIn q (as.flatMap (fun w => lexemes w.script ++ [.symbol .comma]) ++
        ((signs v.direction v.source).map .symbol ++ points xs))
      (lexemes (Predicate.values (as ++ v :: bs)).script)
      (Predicate.values (as ++ v :: bs)).parts := by
  have hv : StandsIn q ((signs v.direction v.source).map .symbol ++ points xs) (lexemes v.script)
      v.path.parts := by
    rw [lexemes_value]
    exact (standsIn_path h).symbols_append _
  exact hv.separated Value.script (fun v => v.path.parts) [sym .comma] as bs
    (fun w _ => counted_value w) rfl

/-- A string of a collection stands in it. -/
theorem standsIn_collection {as bs : List Path} {p : Path} {xs ys : List Part}
    (h : p.parts = xs ++ q :: ys) :
    StandsIn q ([Symbol.lBrace].map .symbol ++
        (as.flatMap (fun r => lexemes r.script ++ [.symbol .comma]) ++ points xs))
      (lexemes (Predicate.collection (as ++ p :: bs)).script)
      (Predicate.collection (as ++ p :: bs)).parts := by
  have hmembers := (standsIn_path h).separated Path.script Path.parts [sym .comma, none] as bs
    (fun r _ => counted_path r) rfl
  have hclosed := (hmembers.append_right [.symbol .rBrace] []).symbols_append [.lBrace]
  rw [List.append_nil] at hclosed
  rw [Predicate.script, Script.lexemes_sym, Script.lexemes_append]
  exact hclosed

/-- A string of the first end of a range stands in it, behind its bracket if there is one. -/
theorem standsIn_first {first : Path} (last : Path) (brackets : Option Brackets) {xs ys : List Part}
    (h : first.parts = xs ++ q :: ys) :
    StandsIn q ((openingOf brackets).map .symbol ++ points xs)
      (lexemes (Predicate.range ⟨first, last, brackets⟩).script)
      (Predicate.range ⟨first, last, brackets⟩).parts := by
  cases brackets with
  | none =>
    rw [Predicate.script, RangeLiteral.script, Script.lexemes_append]
    exact (standsIn_path h).append_right _ _
  | some b =>
    rw [Predicate.script, RangeLiteral.script, Script.lexemes_sym, Script.lexemes_append]
    exact ((standsIn_path h).append_right _ _).symbols_append [_]

/-- A string of the other end stands behind the first one and what separates them. -/
theorem standsIn_last (first : Path) {last : Path} (brackets : Option Brackets) {xs ys : List Part}
    (h : last.parts = xs ++ q :: ys) :
    StandsIn q ((openingOf brackets).map .symbol ++ (lexemes first.script ++
        ([if brackets.isSome then Symbol.comma else .dotDot].map .symbol ++ points xs)))
      (lexemes (Predicate.range ⟨first, last, brackets⟩).script)
      (Predicate.range ⟨first, last, brackets⟩).parts := by
  cases brackets with
  | none =>
    rw [Predicate.script, RangeLiteral.script, Script.lexemes_append, Script.lexemes_sym]
    exact ((standsIn_path h).symbols_append [.dotDot]).append_left (counted_path first)
  | some b =>
    have hlast := (standsIn_path h).append_right
      (lexemes [sym (if b.includeEnd then .rBracket else .rParen)]) []
    rw [List.append_nil] at hlast
    rw [Predicate.script, RangeLiteral.script, Script.lexemes_sym, Script.lexemes_append,
      Script.lexemes_sym, Script.lexemes_append]
    exact ((hlast.symbols_append [.comma]).append_left (counted_path first)).symbols_append [_]

/-! ## Phrases and items -/

/-- A string of the subject stands in the phrase. -/
theorem standsIn_subject {p : Phrase} {xs ys : List Part} (h : p.subject.parts = xs ++ q :: ys) :
    StandsIn q (points xs) (lexemes p.script) p.parts := by
  rw [Phrase.script, Script.lexemes_append]
  exact (standsIn_path h).append_right _ _

/-- A string of what the subject is related to stands in the phrase. -/
theorem StandsIn.predicate {p : Phrase} {family : Family} {predicate : Predicate} {range : Span}
    (h : StandsIn q front (lexemes predicate.script) predicate.parts)
    (hp : p.relation = some (.binary family predicate range)) :
    StandsIn q (lexemes p.subject.script ++ ([family.symbol].map .symbol ++ front))
      (lexemes p.script) p.parts := by
  rw [Phrase.script, Script.lexemes_append, Phrase.parts, hp]
  exact (h.symbols_append [family.symbol]).append_left (counted_path p.subject)

theorem lexemes_mark (mark : Option Mark) : lexemes (mark.toList.map fun m => sym m.symbol) =
    (mark.map Mark.symbol).toList.map .symbol := by
  cases mark <;> rfl

/-- What an item is written with up to one of its phrases. -/
def Item.upTo (i : Item) (ps : List Phrase) : List Lexeme :=
  (itemMarks i.exclude i.source).map .symbol ++
    ((i.element.mark.map Mark.symbol).toList.map .symbol ++
      ps.flatMap fun p => lexemes p.script ++ [.symbol .pipe])

theorem upTo_concat (i : Item) (ps : List Phrase) (p : Phrase) :
    i.upTo (ps ++ [p]) = i.upTo ps ++ lexemes p.script ++ [.symbol .pipe] := by
  simp [Item.upTo]

/-- Up to behind its last phrase an item is written as it is, with a bar behind. -/
theorem upTo_phrases {i : Item} (hne : i.element.phrases ≠ []) :
    i.upTo i.element.phrases = lexemes i.script ++ [.symbol .pipe] := by
  obtain ⟨p, ps, hp⟩ := List.exists_cons_of_ne_nil hne
  rw [lexemes_item, Element.script, Script.lexemes_append, lexemes_mark, Item.upTo, hp,
    List.map_cons, lexemes_separated, ← append_flatMap_append, List.flatMap_map]
  simp

/-- A string of a phrase stands in the item, behind its marks and the phrases before. -/
theorem StandsIn.phrase {i : Item} {ps qs : List Phrase} {p : Phrase}
    (h : StandsIn q front (lexemes p.script) p.parts) (hp : i.element.phrases = ps ++ p :: qs) :
    StandsIn q (i.upTo ps ++ front) (lexemes i.script) i.parts := by
  have hphrases := h.separated Phrase.script Phrase.parts [sym .pipe] ps qs
    (fun b _ => counted_phrase b) rfl
  rw [← hp] at hphrases
  rw [lexemes_item, Element.script, Script.lexemes_append, lexemes_mark, Item.upTo,
    List.append_assoc, List.append_assoc]
  exact (hphrases.symbols_append _).symbols_append _

/-- A string of an item stands in the query, behind the items before. -/
theorem StandsIn.item {i : Item} (before after : List (Bool × Item)) (amp : Bool)
    (h : StandsIn q front (lexemes i.script) i.parts) :
    StandsIn q (joined before ++ (joint amp ++ front)) (joined (before ++ (amp, i) :: after))
      ((before ++ (amp, i) :: after).flatMap fun j => j.2.parts) := by
  have hjoint : ∀ amp : Bool, Counted (joint amp) [] := fun amp => by cases amp <;> rfl
  simp only [joined, List.flatMap_append, List.flatMap_cons]
  refine StandsIn.append_left ((h.append_left (hjoint amp)).append_right _ _) ?_
  exact counted_flatMap fun j _ => (hjoint j.1).append (counted_item j.2)

end Query

end PixQuery
