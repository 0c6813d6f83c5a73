import PixQuery.Proofs.Query.Parts

/-!
# Words before a colon

What a phrase asks about stands right before its relation. So when certain words do not stand before
a colon anywhere in a query, no phrase that is read from it asks for what is equal to something
under these words; and when no phrase does so, the words do not stand there in what is written.

Results:
* `Query.avoids_of_readItem`: what is read from tokens without such words.
* `Query.avoids_script`: what is written for phrases without such words.
-/

namespace PixQuery.Query

open Script (lexemes sym separated)

variable {Q : String → Prop}

/-- No word with a property stands right before a colon. -/
def Avoids (Q : String → Prop) (ls : List Lexeme) : Prop :=
  ls.IsChain fun a b => b = .symbol .colon → ∀ w, a = .string w .word → ¬Q w

/-- A phrase that does not ask for equality under a word with a property. -/
def Phrase.Avoids (Q : String → Prop) (p : Phrase) : Prop :=
  ∀ predicate range, p.relation = some (.binary .equal predicate range) →
    p.subject.last.kind = .word → ¬Q p.subject.last.value

/-! ## Reading -/

/-- The tokens of a tree avoid such words. -/
def AvoidsIn (Q : String → Prop) (t : Tree) : Prop := Avoids Q (t.tokens.map Token.lexeme)

/-- A piece of the tokens avoids them too. -/
theorem AvoidsIn.of_infix {t u : Tree} (h : AvoidsIn Q t) (hu : u.tokens <:+: t.tokens) :
    AvoidsIn Q u :=
  h.infix (hu.map _)

theorem last_of_parts {p : Path} {before : List Part} {q : Part} (h : p.parts = before ++ [q]) :
    p.last = q := by
  have hlast := congrArg List.getLast? h
  rw [Path.parts, List.getLast?_cons, List.getLast?_concat] at hlast
  exact Option.some.inj hlast

theorem tokens_of_childrenOf {t u : Tree} {us : List Tree} (h : childrenOf t = u :: us) :
    t.tokens = Tree.tokensOf (u :: us) := by
  cases t with
  | leaf => cases h
  | node n key children range =>
    obtain rfl : children = u :: us := h
    rfl

/-- The last string of a path is the last token of what it is read from. -/
theorem exists_of_readPath {t : Tree} {p : Path} (h : readPath t = .ok p) :
    ∃ before range, t.tokens = before ++ [⟨.string p.last.value p.last.kind, range⟩] := by
  obtain ⟨ts, hts, h⟩ := Understood.exists_of_bind h
  obtain ⟨parts, hparts, hpath⟩ := Understood.exists_of_bind h
  obtain ⟨before, last, rfl, tokens, htokens⟩ := exists_last_of_leftListOnto hts
  rw [List.mapM_append] at hparts
  obtain ⟨qs, _, hparts⟩ := Understood.exists_of_bind hparts
  obtain ⟨rs, hrs, hparts⟩ := Understood.exists_of_bind hparts
  rw [List.mapM_cons] at hrs
  obtain ⟨q, hq, hrs⟩ := Understood.exists_of_bind hrs
  obtain rfl := Except.ok.inj hrs
  obtain rfl := Except.ok.inj hparts
  have hlast : p.last = q := by
    refine @last_of_parts p qs q ?_
    split at hpath
    · rename_i hcons
      obtain rfl := Except.ok.inj hpath
      exact hcons.symm
    · cases hpath
  unfold readPart at hq
  split at hq
  · obtain rfl := Except.ok.inj hq
    exact ⟨tokens, (p.last).range, by rw [hlast, ← htokens]; rfl⟩
  · cases hq

/-- The symbol for equality is the first token of what it is read from. -/
theorem exists_of_readFamily {t : Tree} (h : readFamily t = .ok .equal) :
    ∃ range after, t.tokens = ⟨.symbol .colon, range⟩ :: after := by
  unfold readFamily at h
  split at h <;> try cases h
  rename_i hsymbol
  unfold onlySymbol? at hsymbol
  split at hsymbol
  · rename_i child hchildren
    rw [tokens_of_childrenOf hchildren]
    cases child with
    | node => cases hsymbol
    | leaf token =>
      obtain ⟨lexeme, range⟩ := token
      cases lexeme with
      | string => cases hsymbol
      | symbol s =>
        obtain rfl := Option.some.inj hsymbol
        exact ⟨range, [], rfl⟩
  · cases hsymbol

theorem avoids_of_readPhrase {t : Tree} {p : Phrase} (ht : AvoidsIn Q t)
    (h : readPhrase t = .ok p) : p.Avoids Q := by
  unfold readPhrase at h
  split at h
  · obtain ⟨subject, _, h⟩ := Understood.exists_of_bind h
    obtain rfl := Except.ok.inj h
    exact fun _ _ hr => by cases hr
  · obtain ⟨subject, _, h⟩ := Understood.exists_of_bind h
    obtain ⟨direction, _, h⟩ := Understood.exists_of_bind (of_bind_expect h)
    obtain rfl := Except.ok.inj h
    exact fun _ _ hr => by cases hr
  · rename_i s f predicative hchildren
    obtain ⟨subject, hsubject, h⟩ := Understood.exists_of_bind h
    obtain ⟨family, hfamily, h⟩ := Understood.exists_of_bind (of_bind_expect h)
    obtain ⟨predicate, _, h⟩ := Understood.exists_of_bind (of_bind_expect h)
    obtain rfl := Except.ok.inj h
    intro predicate' range hr hkind
    obtain ⟨rfl, _, _⟩ := Relation.binary.inj (Option.some.inj hr)
    have hpath := of_bind_expect hsubject
    split at hpath
    · rename_i child hchild
      -- the subject ends with its last string, and the colon is right behind it
      obtain ⟨before, r, hbefore⟩ := exists_of_readPath (of_bind_expect hpath)
      obtain ⟨r', after, hafter⟩ := exists_of_readFamily hfamily
      have hs : s.tokens = child.tokens := by
        rw [tokens_of_childrenOf hchild, Tree.tokensOf, Tree.tokensOf, List.append_nil]
      rw [AvoidsIn, tokens_of_childrenOf hchildren, Tree.tokensOf, Tree.tokensOf, hs, hbefore,
        hafter, Avoids, List.map_append, List.isChain_append] at ht
      refine ht.2.2 (.string subject.last.value subject.last.kind) (by simp) (.symbol .colon)
        (by simp) rfl _ ?_
      rw [hkind]
    · cases hpath
  · cases h

/-- **An item that is read from tokens without such words** does not ask under them. -/
theorem avoids_of_readItem {t : Tree} {i : Item} (ht : AvoidsIn Q t) (h : readItem t = .ok i) :
    ∀ p ∈ i.element.phrases, p.Avoids Q := by
  intro p hp
  obtain ⟨u, hu, hup⟩ := (exists_of_readItem h).2 p hp
  exact avoids_of_readPhrase (ht.of_infix hu) hup

/-! ## Writing -/

/-- Lexemes that avoid such words, whatever is before them. -/
structure Closed (Q : String → Prop) (ls : List Lexeme) : Prop where
  avoids : Avoids Q ls
  head : ls.head? ≠ some (.symbol .colon)

theorem sym_inj {a b : Symbol} : sym a = sym b ↔ a = b := by simp [sym]

theorem mem_lexemes {l : Lexeme} {s : Script} : l ∈ lexemes s ↔ some l ∈ s := by
  simp [lexemes]

theorem Closed.nil : Closed Q [] := ⟨List.isChain_nil, by simp⟩

/-- Without a colon there is nothing to avoid. -/
theorem closed_of_not_mem {s : Script} (h : sym .colon ∉ s) : Closed Q (lexemes s) where
  avoids := by
    refine List.isChain_iff_getElem.mpr fun n hn hcolon => absurd (mem_lexemes.mp ?_) h
    rw [← hcolon]
    exact List.getElem_mem hn
  head hhead := h (mem_lexemes.mp (List.mem_of_head? hhead))

theorem Closed.append {ls ms : List Lexeme} (hl : Closed Q ls) (hm : Closed Q ms) :
    Closed Q (ls ++ ms) where
  avoids := List.isChain_append.mpr ⟨hl.avoids, hm.avoids, fun x _ y hy hcolon =>
    absurd (hcolon ▸ hy) hm.head⟩
  head h := by
    rw [List.head?_append, Option.or_eq_some_iff] at h
    exact h.elim hl.head fun h => hm.head h.2

theorem closed_separated {between : Script} {ss : List Script}
    (hbetween : Closed Q (lexemes between)) (hss : ∀ s ∈ ss, Closed Q (lexemes s)) :
    Closed Q (lexemes (separated between ss)) := by
  cases ss with
  | nil => exact .nil
  | cons s ss =>
    have hs := hss s List.mem_cons_self
    have hrest := fun t ht => hss t (List.mem_cons_of_mem s ht)
    clear hss
    rw [separated]
    induction ss generalizing s with
    | nil => simpa using hs
    | cons t ss ih =>
      rw [List.flatMap_cons, ← List.append_assoc]
      refine ih _ ?_ fun u hu => hrest u (List.mem_cons_of_mem t hu)
      rw [Script.lexemes_append, Script.lexemes_append]
      exact hs.append (hbetween.append (hrest t List.mem_cons_self))

theorem not_mem_separated {y : Option Lexeme} {between : Script} {ss : List Script}
    (hbetween : y ∉ between) (hss : ∀ s ∈ ss, y ∉ s) : y ∉ separated between ss := by
  cases ss with
  | nil => exact List.not_mem_nil
  | cons s ss =>
    intro hy
    rcases List.mem_append.mp hy with hy | hy
    · exact hss s List.mem_cons_self hy
    · obtain ⟨t, ht, hy⟩ := List.mem_flatMap.mp hy
      rcases List.mem_append.mp hy with hy | hy
      · exact hbetween hy
      · exact hss t (List.mem_cons_of_mem s ht) hy

theorem colon_not_mem_path (p : Path) : sym .colon ∉ p.script :=
  not_mem_separated (by decide) fun s hs => by
    obtain ⟨q, _, rfl⟩ := List.mem_map.mp hs
    simp [Part.piece, sym]

theorem colon_not_mem_value (v : Value) : sym .colon ∉ v.script := by
  obtain ⟨direction, source, path, range⟩ := v
  have hdirection : sym .colon ∉ direction.toList.map fun d => sym d.sign := by
    match direction with
    | none | some .ascending | some .descending => decide
  have hsource : sym .colon ∉ if source then [sym .caret] else [] := by cases source <;> decide
  simp only [Value.script, List.mem_append, not_or]
  exact ⟨⟨hdirection, hsource⟩, colon_not_mem_path path⟩

theorem colon_not_mem_range (r : RangeLiteral) : sym .colon ∉ r.script := by
  obtain ⟨first, last, brackets⟩ := r
  have hfirst := colon_not_mem_path first
  have hlast := colon_not_mem_path last
  match brackets with
  | none => simp [RangeLiteral.script, hfirst, hlast, sym_inj]
  | some ⟨includeBegin, includeEnd⟩ =>
    cases includeBegin <;> cases includeEnd <;> simp [RangeLiteral.script, hfirst, hlast, sym_inj]

/-- The only colons are those before predicates. -/
theorem colon_not_mem_predicate (p : Predicate) : sym .colon ∉ p.script := by
  cases p with
  | values vs =>
    refine not_mem_separated (by decide) fun s hs => ?_
    obtain ⟨v, _, rfl⟩ := List.mem_map.mp hs
    exact colon_not_mem_value v
  | collection ps =>
    have hmembers : sym .colon ∉ separated [sym .comma, none] (ps.map Path.script) := by
      refine not_mem_separated (by decide) fun s hs => ?_
      obtain ⟨p, _, rfl⟩ := List.mem_map.mp hs
      exact colon_not_mem_path p
    simp [Predicate.script, hmembers, sym_inj]
  | range r => exact colon_not_mem_range r

/-- The last lexeme of a path is its last string. -/
theorem exists_lexemes_path (p : Path) :
    ∃ before, lexemes p.script = before ++ [.string p.last.value p.last.kind] := by
  obtain ⟨first, others⟩ := p
  rw [Path.script_eq]
  rcases List.eq_nil_or_concat others with rfl | ⟨qs, q, rfl⟩
  · exact ⟨[], rfl⟩
  · refine ⟨lexemes (first.piece :: (qs.flatMap fun q => [sym .dot, q.piece]) ++ [sym .dot]), ?_⟩
    have hlast : Path.last ⟨first, qs.concat q⟩ = q := by simp [Path.last]
    rw [hlast, List.concat_eq_append, List.flatMap_append, List.flatMap_singleton,
      ← List.cons_append]
    simp [lexemes, Part.piece, sym]

theorem closed_phrase {p : Phrase} (h : p.Avoids Q) : Closed Q (lexemes p.script) := by
  obtain ⟨subject, relation, range⟩ := p
  have hsubject : Closed Q (lexemes subject.script) :=
    closed_of_not_mem (colon_not_mem_path subject)
  rw [Phrase.script, Script.lexemes_append]
  cases relation with
  | none => exact hsubject.append .nil
  | some r =>
    cases r with
    | unary direction range =>
      refine hsubject.append ?_
      cases direction
      · exact closed_of_not_mem (s := [sym .tildePlus]) (by decide)
      · exact closed_of_not_mem (s := [sym .tildeMinus]) (by decide)
    | binary family predicate range =>
      have hpredicate : Closed Q (lexemes predicate.script) :=
        closed_of_not_mem (colon_not_mem_predicate predicate)
      by_cases hequal : family = .equal
      · subst hequal
        obtain ⟨before, hbefore⟩ := exists_lexemes_path subject
        have hcolon : Avoids Q (.symbol .colon :: lexemes predicate.script) :=
          List.isChain_cons.mpr ⟨fun y hy hcolon => absurd (hcolon ▸ hy) hpredicate.head,
            hpredicate.avoids⟩
        refine ⟨List.isChain_append.mpr ⟨hsubject.avoids, hcolon, fun x hx _ _ _ w hw => ?_⟩, ?_⟩
        · rw [hbefore, List.getLast?_concat, hw] at hx
          obtain ⟨rfl, hkind⟩ := Lexeme.string.inj (Option.some.inj hx)
          exact h predicate range rfl hkind
        · rw [hbefore, List.append_assoc]
          have hhead := hsubject.head
          rw [hbefore] at hhead
          cases before with
          | nil => simp
          | cons l ls => exact hhead
      · refine hsubject.append ((closed_of_not_mem (s := [sym family.symbol]) ?_).append hpredicate)
        cases family <;> first | exact absurd rfl hequal | decide

theorem closed_item {i : Item} (h : ∀ p ∈ i.element.phrases, p.Avoids Q) :
    Closed Q (lexemes i.script) := by
  obtain ⟨exclude, source, ⟨mark, phrases, _⟩, range⟩ := i
  have hphrases : Closed Q (lexemes (separated [sym .pipe] (phrases.map Phrase.script))) :=
    closed_separated (closed_of_not_mem (by decide)) fun s hs => by
      obtain ⟨p, hp, rfl⟩ := List.mem_map.mp hs
      exact closed_phrase (h p hp)
  have hmark : Closed Q (lexemes (mark.toList.map fun m => sym m.symbol)) := by
    match mark with
    | none | some .author | some .topic | some .tag => exact closed_of_not_mem (by decide)
  have hexclude : Closed Q (lexemes (if exclude then [sym .minus] else [])) :=
    closed_of_not_mem (by cases exclude <;> decide)
  have hsource : Closed Q (lexemes (if source then [sym .caret] else [])) :=
    closed_of_not_mem (by cases source <;> decide)
  rw [Item.script, Element.script]
  simp only [Script.lexemes_append]
  exact (hexclude.append hsource).append (hmark.append hphrases)

/-- **Phrases that do not ask under such words are written without them before a colon.** -/
theorem avoids_script {items : List Item} (h : ∀ i ∈ items, ∀ p ∈ i.element.phrases, p.Avoids Q) :
    Avoids Q (lexemes (script items)) :=
  (closed_separated (closed_of_not_mem (by decide)) fun s hs => by
    obtain ⟨i, hi, rfl⟩ := List.mem_map.mp hs
    exact closed_item (h i hi)).avoids

end PixQuery.Query
