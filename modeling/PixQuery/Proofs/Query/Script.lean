import PixQuery.Proofs.Token.Writing
import PixQuery.Query.Basic

/-!
# Queries as scripts

How each part of a query is written, as a script. Members of collections have a comma and a space
between them, items a space, and everything else stands close together. A script of a query is
legible when the bare words in it are bare words and no direction stands behind a tilde, with which
it would be another symbol.

Results:
* `Script.legible_separated`: members that are kept apart by what may stand anywhere are legible.
* `Query.legible_script`: the script of a query is legible.
-/

namespace PixQuery

namespace Script

/-- A symbol as a piece of a script. -/
def sym (s : Symbol) : Option Lexeme := some (.symbol s)

/-- Scripts with another between them. -/
def separated (between : Script) : List Script → Script
  | [] => []
  | s :: ss => s ++ ss.flatMap (between ++ ·)

variable {s t : Script} {x y : Option Lexeme}

/-! ## What may stand anywhere -/

/-- A piece that may stand behind any other. -/
def Breaks (y : Option Lexeme) : Prop := ∀ x, mayMeet x y = true

/-- A piece that any other may stand behind. -/
def Frees (x : Option Lexeme) : Prop := ∀ y, mayMeet x y = true

theorem breaks_space : Breaks none := fun x => by unfold mayMeet; split <;> simp_all

theorem frees_space : Frees none := fun _ => rfl

theorem breaks_sym {s : Symbol} (h : s ∉ [.plus, .minus, .dot, .dotDot]) : Breaks (sym s) := by
  simp only [List.mem_cons, List.not_mem_nil, or_false, not_or] at h
  intro x
  unfold mayMeet sym
  split <;> simp_all

theorem frees_sym {s : Symbol} (h : s ∉ [.dot, .tilde]) : Frees (sym s) := by
  simp only [List.mem_cons, List.not_mem_nil, or_false, not_or] at h
  intro y
  unfold mayMeet sym
  split <;> simp_all

/-! ## Legible scripts -/

theorem legible_nil : Legible [] := ⟨by simp, List.isChain_nil⟩

theorem legible_singleton (hx : ∀ l, x = some l → l.IsWritable) : Legible [x] :=
  ⟨fun l hl => hx l (List.mem_singleton.mp hl).symm, List.isChain_singleton x⟩

theorem legible_sym (s : Symbol) : Legible [sym s] := by
  refine legible_singleton fun l hl => ?_
  obtain rfl := Option.some.inj hl
  trivial

theorem Legible.append (hs : Legible s) (ht : Legible t)
    (h : ∀ x ∈ s.getLast?, ∀ y ∈ t.head?, mayMeet x y = true) : Legible (s ++ t) where
  writable l hl := (List.mem_append.mp hl).elim (hs.writable l) (ht.writable l)
  apart := List.isChain_append.mpr ⟨hs.apart, ht.apart, h⟩

theorem Legible.append_of_breaks (hs : Legible s) (ht : Legible (y :: t)) (h : Breaks y) :
    Legible (s ++ y :: t) :=
  hs.append ht fun x _ z hz => by
    obtain rfl : y = z := by simpa using hz
    exact h x

theorem Legible.cons_of_frees {u : Symbol} (ht : Legible t) (h : Frees (sym u)) :
    Legible (sym u :: t) :=
  (legible_sym u).append ht fun x hx y _ => by
    obtain rfl : sym u = x := by simpa using hx
    exact h y

/-- Members with a script between them that may stand behind anything, and anything behind it. -/
theorem legible_separated {x y : Option Lexeme} {between : Script} {ss : List Script}
    (hbetween : Legible between) (hhead : between.head? = some y)
    (hlast : between.getLast? = some x)
    (hy : Breaks y) (hx : Frees x) (hss : ∀ s ∈ ss, Legible s) :
      Legible (separated between ss) := by
  cases ss with
  | nil => exact legible_nil
  | cons s ss =>
    have hs := hss s List.mem_cons_self
    have hrest := fun t ht => hss t (List.mem_cons_of_mem s ht)
    clear hss
    rw [separated]
    induction ss generalizing s with
    | nil => simpa using hs
    | cons t ss ih =>
      rw [List.flatMap_cons, ← List.append_assoc]
      have hjoin : Legible (s ++ (between ++ t)) := by
        have ht := hbetween.append (hrest t List.mem_cons_self) fun z hz w _ => by
          obtain rfl : x = z := by simpa [hlast] using hz
          exact hx w
        refine hs.append ht fun z _ w hw => ?_
        obtain rfl : y = w := by simpa [List.head?_append, hhead] using hw
        exact hy z
      exact ih _ hjoin fun u hu => hrest u (List.mem_cons_of_mem t hu)

theorem lexemes_append (s t : Script) : lexemes (s ++ t) = lexemes s ++ lexemes t :=
  List.filterMap_append

@[simp] theorem lexemes_nil : lexemes [] = [] := rfl

@[simp] theorem lexemes_sym (u : Symbol) (s : Script) :
    lexemes (sym u :: s) = .symbol u :: lexemes s := rfl

@[simp] theorem lexemes_space (s : Script) : lexemes (none :: s) = lexemes s := rfl

end Script

namespace Query

open Script (sym separated)

/-! ## How a query is written -/

/-- A string of a path. -/
def Part.piece (p : Part) : Option Lexeme := some (.string p.value p.kind)

/-- A path. -/
def Path.script (p : Path) : Script :=
  separated [sym .dot] (p.parts.map fun q => [q.piece])

/-- The sign of a direction. -/
def Direction.sign : Direction → Symbol
  | .ascending => .plus
  | .descending => .minus

/-- A value with what is before it. -/
def Value.script (v : Value) : Script :=
  (v.direction.toList.map fun d => sym d.sign) ++ (if v.source then [sym .caret] else []) ++
    v.path.script

/-- The symbol of a binary relation. -/
def Family.symbol : Family → Symbol
  | equal => .colon
  | gt => .gt
  | gte => .gte
  | lt => .lt
  | lte => .lte
  | similar => .tilde

/-- A range. -/
def RangeLiteral.script (r : RangeLiteral) : Script :=
  match r.brackets with
  | none => r.first.script ++ sym .dotDot :: r.last.script
  | some b =>
    sym (if b.includeBegin then .lBracket else .lParen) :: (r.first.script ++
      sym .comma :: (r.last.script ++ [sym (if b.includeEnd then .rBracket else .rParen)]))

/-- What a relation relates to. -/
def Predicate.script : Predicate → Script
  | values vs => separated [sym .comma] (vs.map Value.script)
  | collection ps =>
    sym .lBrace :: (separated [sym .comma, none] (ps.map Path.script) ++ [sym .rBrace])
  | range r => r.script

/-- A relation. -/
def Relation.script : Relation → Script
  | binary family predicate _ => sym family.symbol :: predicate.script
  | unary .ascending _ => [sym .tildePlus]
  | unary .descending _ => [sym .tildeMinus]

/-- A phrase. -/
def Phrase.script (p : Phrase) : Script :=
  p.subject.script ++ (p.relation.map Relation.script).getD []

/-- The symbol of a mark. -/
def Mark.symbol : Mark → Symbol
  | author => .atSign
  | topic => .hash
  | tag => .dollar

/-- An element. -/
def Element.script (e : Element) : Script :=
  (e.mark.toList.map fun m => sym m.symbol) ++ separated [sym .pipe] (e.phrases.map Phrase.script)

/-- An item. -/
def Item.script (i : Item) : Script :=
  (if i.exclude then [sym .minus] else []) ++ (if i.source then [sym .caret] else []) ++
    i.element.script

/-- A query. -/
def script (items : List Item) : Script := separated [none] (items.map Item.script)

/-! ## What can be written -/

/-- The bare words of a path are bare words. -/
def Path.IsWritable (p : Path) : Prop :=
  ∀ q ∈ p.parts, q.kind = .word → isBareWord q.value.toList = true

/-- The bare words of a predicate are bare words. -/
def Predicate.IsWritable : Predicate → Prop
  | values vs => ∀ v ∈ vs, v.path.IsWritable
  | collection ps => ∀ p ∈ ps, p.IsWritable
  | range r => r.first.IsWritable ∧ r.last.IsWritable

/-- No direction stands at the front of a predicate. -/
def Predicate.IsUndirected : Predicate → Prop
  | values vs => ∀ v, vs.head? = some v → v.direction = none
  | collection _ | range _ => True

/-- The bare words of a relation are bare words, and nothing is mistaken for a unary relation. -/
def Relation.IsWritable : Relation → Prop
  | binary family predicate _ =>
    predicate.IsWritable ∧ (family = .similar → predicate.IsUndirected)
  | unary .. => True

/-- The bare words of a phrase are bare words. -/
def Phrase.IsWritable (p : Phrase) : Prop :=
  p.subject.IsWritable ∧ ∀ r, p.relation = some r → r.IsWritable

/-- The bare words of an item are bare words. -/
def Item.IsWritable (i : Item) : Prop := ∀ p ∈ i.element.phrases, p.IsWritable

/-! ## Legible queries -/

open Script (Legible Breaks Frees mayMeet breaks_sym frees_sym breaks_space frees_space)

theorem mayMeet_piece_sym (p : Part) {s : Symbol} (h : s ∉ [.plus, .minus]) :
    mayMeet p.piece (sym s) = true := by
  simp only [List.mem_cons, List.not_mem_nil, or_false, not_or] at h
  obtain ⟨value, kind, range⟩ := p
  cases kind <;> simp [mayMeet, Part.piece, sym, h.1, h.2]

theorem mayMeet_sym_piece (s : Symbol) (p : Part) : mayMeet (sym s) p.piece = true := by
  cases s <;> rfl

theorem Path.script_eq (p : Path) :
    p.script = p.first.piece :: p.others.flatMap fun q => [sym .dot, q.piece] := by
  simp [Path.script, Path.parts, separated, List.flatMap_map]

theorem Path.head?_script (p : Path) : p.script.head? = some p.first.piece := by
  rw [Path.script_eq, List.head?_cons]

theorem legible_piece {q : Part} (h : q.kind = .word → isBareWord q.value.toList = true) :
    Legible [q.piece] :=
  Script.legible_singleton fun l hl => by
    obtain rfl := Option.some.inj hl
    exact h

/-- A string, and strings behind it with points between them. -/
theorem legible_parts : ∀ (q : Part) (qs : List Part),
    (∀ r ∈ q :: qs, r.kind = .word → isBareWord r.value.toList = true) →
    Legible (q.piece :: qs.flatMap fun r => [sym .dot, r.piece])
  | q, [], h => legible_piece (h q List.mem_cons_self)
  | q, r :: rs, h => by
    have ih := legible_parts r rs fun t ht => h t (List.mem_cons_of_mem q ht)
    have hq := legible_piece (h q List.mem_cons_self)
    have hdot := (Script.legible_sym .dot).append ih fun x hx y hy => by
      obtain rfl : sym .dot = x := by simpa using hx
      obtain rfl : r.piece = y := by simpa using hy
      exact mayMeet_sym_piece .dot r
    refine hq.append hdot fun x hx y hy => ?_
    obtain rfl : q.piece = x := by simpa using hx
    obtain rfl : sym .dot = y := by simpa using hy
    exact mayMeet_piece_sym q (by decide)

theorem legible_path {p : Path} (h : p.IsWritable) : Legible p.script := by
  rw [Path.script_eq]
  exact legible_parts p.first p.others h

theorem exists_getLast?_path (p : Path) : ∃ q : Part, p.script.getLast? = some q.piece := by
  rw [Path.script_eq]
  rcases List.eq_nil_or_concat p.others with h | ⟨qs, q, h⟩
  · exact ⟨p.first, by rw [h]; rfl⟩
  · refine ⟨q, ?_⟩
    rw [h, List.concat_eq_append, List.flatMap_append, List.flatMap_singleton, ← List.cons_append,
      List.getLast?_append]
    rfl

theorem legible_value {v : Value} (h : v.path.IsWritable) : Legible v.script := by
  have hpath := legible_path h
  obtain ⟨direction, source, path, range⟩ := v
  have hcaret : Legible ((if source then [sym .caret] else []) ++ path.script) := by
    cases source
    · exact hpath
    · exact hpath.cons_of_frees (frees_sym (by decide))
  rw [Value.script, List.append_assoc]
  match direction with
  | none => exact hcaret
  | some .ascending => exact hcaret.cons_of_frees (frees_sym (by decide))
  | some .descending => exact hcaret.cons_of_frees (frees_sym (by decide))

theorem legible_range {r : RangeLiteral} (h : r.first.IsWritable ∧ r.last.IsWritable) :
    Legible r.script := by
  obtain ⟨first, last, brackets⟩ := r
  have hfirst := legible_path h.1
  have hlast := legible_path h.2
  cases brackets with
  | none =>
    refine hfirst.append (hlast.cons_of_frees (frees_sym (by decide))) fun x hx y hy => ?_
    obtain ⟨q, hq⟩ := exists_getLast?_path first
    obtain rfl : q.piece = x := by simpa [hq] using hx
    obtain rfl : sym .dotDot = y := by simpa using hy
    exact mayMeet_piece_sym q (by decide)
  | some b =>
    obtain ⟨includeBegin, includeEnd⟩ := b
    have hopening : Frees (sym (if includeBegin then .lBracket else .lParen)) := by
      cases includeBegin <;> exact frees_sym (by decide)
    have hclosing : Breaks (sym (if includeEnd then .rBracket else .rParen)) := by
      cases includeEnd <;> exact breaks_sym (by decide)
    have hcomma := (hlast.append_of_breaks (Script.legible_sym _) hclosing).cons_of_frees
      (frees_sym (s := .comma) (by decide))
    exact (hfirst.append_of_breaks hcomma (breaks_sym (by decide))).cons_of_frees hopening

theorem legible_predicate {p : Predicate} (h : p.IsWritable) : Legible p.script := by
  cases p with
  | values vs =>
    refine Script.legible_separated (Script.legible_sym .comma) rfl rfl (breaks_sym (by decide))
      (frees_sym (by decide)) fun s hs => ?_
    obtain ⟨v, hv, rfl⟩ := List.mem_map.mp hs
    exact legible_value (h v hv)
  | collection ps =>
    have hcomma : Legible [sym .comma, none] :=
      (Script.legible_singleton (by simp)).cons_of_frees (frees_sym (by decide))
    have hmembers : Legible (separated [sym .comma, none] (ps.map Path.script)) :=
      Script.legible_separated hcomma rfl rfl (breaks_sym (by decide)) frees_space fun s hs => by
        obtain ⟨p, hp, rfl⟩ := List.mem_map.mp hs
        exact legible_path (h p hp)
    exact (hmembers.append_of_breaks (Script.legible_sym .rBrace)
      (breaks_sym (by decide))).cons_of_frees (frees_sym (by decide))
  | range r => exact legible_range h

/-- A predicate without a direction at its front does not become part of a tilde before it. -/
theorem mayMeet_tilde_head {p : Predicate} (h : p.IsUndirected) :
    ∀ y ∈ p.script.head?, mayMeet (sym .tilde) y = true := by
  intro y hy
  have hpath : ∀ (q : Path) (rest : Script), (q.script ++ rest).head? = some y →
      mayMeet (sym .tilde) y = true := by
    intro q rest hq
    rw [List.head?_append, Path.head?_script, Option.some_or] at hq
    obtain rfl := Option.some.inj hq
    exact mayMeet_sym_piece _ _
  match p, h with
  | .values [], _ => cases hy
  | .values (v :: vs), h =>
    obtain ⟨direction, source, path, range⟩ := v
    obtain rfl : direction = none := h _ rfl
    cases source
    · rw [Predicate.script, List.map_cons, separated, Value.script] at hy
      exact hpath path _ (by simpa using hy)
    · obtain rfl : sym .caret = y := by
        simpa [Predicate.script, separated, Value.script] using hy
      rfl
  | .collection _, _ =>
    obtain rfl : sym .lBrace = y := by simpa [Predicate.script] using hy
    rfl
  | .range ⟨first, last, none⟩, _ => exact hpath first _ hy
  | .range ⟨first, last, some ⟨true, _⟩⟩, _ =>
    obtain rfl : sym .lBracket = y := by simpa [Predicate.script, RangeLiteral.script] using hy
    rfl
  | .range ⟨first, last, some ⟨false, _⟩⟩, _ =>
    obtain rfl : sym .lParen = y := by simpa [Predicate.script, RangeLiteral.script] using hy
    rfl

theorem legible_relation {r : Relation} (h : r.IsWritable) : Legible r.script := by
  cases r with
  | binary family predicate range =>
    have hpredicate := legible_predicate h.1
    cases family
    case similar =>
      refine (Script.legible_sym .tilde).append hpredicate fun x hx y hy => ?_
      obtain rfl : sym .tilde = x := by simpa using hx
      exact mayMeet_tilde_head (h.2 rfl) y hy
    all_goals exact hpredicate.cons_of_frees (frees_sym (by decide))
  | unary direction range => cases direction <;> exact Script.legible_sym _

/-- A relation begins with a symbol that may stand behind anything. -/
theorem exists_relation_head (r : Relation) : ∃ y rest, r.script = y :: rest ∧ Breaks y := by
  cases r with
  | binary family predicate range =>
    refine ⟨_, _, rfl, ?_⟩
    cases family <;> exact breaks_sym (by decide)
  | unary direction range =>
    cases direction <;> exact ⟨_, _, rfl, breaks_sym (by decide)⟩

theorem legible_phrase {p : Phrase} (h : p.IsWritable) : Legible p.script := by
  obtain ⟨subject, relation, range⟩ := p
  have hsubject := legible_path h.1
  cases relation with
  | none => simpa [Phrase.script] using hsubject
  | some r =>
    obtain ⟨y, rest, hr, hy⟩ := exists_relation_head r
    have hrelation := legible_relation (h.2 r rfl)
    rw [Phrase.script, Option.map_some, Option.getD_some, hr]
    rw [hr] at hrelation
    exact hsubject.append_of_breaks hrelation hy

theorem legible_item {i : Item} (h : i.IsWritable) : Legible i.script := by
  obtain ⟨exclude, source, ⟨mark, phrases, _⟩, range⟩ := i
  have hphrases : Legible (separated [sym .pipe] (phrases.map Phrase.script)) :=
    Script.legible_separated (Script.legible_sym .pipe) rfl rfl (breaks_sym (by decide))
      (frees_sym (by decide)) fun s hs => by
        obtain ⟨p, hp, rfl⟩ := List.mem_map.mp hs
        exact legible_phrase (h p hp)
  have hmark : Legible (Element.script ⟨mark, phrases, ‹Span›⟩) := by
    match mark with
    | none => exact hphrases
    | some m => exact hphrases.cons_of_frees (by cases m <;> exact frees_sym (by decide))
  rw [Item.script, List.append_assoc]
  have hsource : Legible ((if source then [sym .caret] else []) ++
      Element.script ⟨mark, phrases, ‹Span›⟩) := by
    cases source
    · exact hmark
    · exact hmark.cons_of_frees (frees_sym (by decide))
  cases exclude
  · exact hsource
  · exact hsource.cons_of_frees (frees_sym (by decide))

/-- **The script of a query is legible** when its bare words are bare words. -/
theorem legible_script {items : List Item} (h : ∀ i ∈ items, i.IsWritable) :
    Legible (script items) := by
  refine Script.legible_separated (Script.legible_singleton (by simp)) rfl rfl breaks_space
    frees_space fun s hs => ?_
  obtain ⟨i, hi, rfl⟩ := List.mem_map.mp hs
  exact legible_item (h i hi)

end Query

end PixQuery
