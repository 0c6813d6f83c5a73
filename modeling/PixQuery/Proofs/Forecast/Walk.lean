import PixQuery.Forecast.Place
import PixQuery.Proofs.Query.Joined

/-!
# Reading a query backwards

What is expected for a string is told by the tokens before it, the nearest first. Here these tokens
are those of a query, so the walk is followed through its parts: it goes through paths, is stopped
by relations and marks, and does not notice where an item begins unless something there stops it.

Results:
* `Place.contextBehind_barred`: bars and slashes are the same to the walk, and places do not matter.
* `Place.contextOfUnion_append`: the walk behind a bar goes through strings, points and bars.
* `Place.beforeRelation?_append`: the walk to a relation goes through what stands among values.
* `Place.ends_joined`: behind whole items no path goes on, and no sign waits for its string.
-/

namespace PixQuery

open Query

/-- The token with a bar for a slash, wherever it stands. -/
def Token.barred (t : Token) : Token := ⟨t.lexeme.barred, .point 0⟩

namespace Place

/-! ## Rows of lexemes -/

/-- What is expected behind some tokens, the nearest first. -/
def contextBehind (before : List Token) : Option ForecastContext :=
  let (source, before) := dropMarks before
  let unmarked : ForecastContext := if source then .metadata .sourceTag else .bare
  match nearestSymbol? before with
  | none => some unmarked
  | some s =>
    if opensValue s then contextOfValues? before source
    else
      match markedKind? s with
      | some kind => some (.metadata kind)
      | none =>
        if (s = .pipe ∨ s = .slash) ∧ !source then some (contextOfUnion before.tail)
        else some unmarked

theorem context?_eq (p : Place) : p.context? = contextBehind (splitPath p.before).2 := rfl

/-- The tokens of a row of lexemes, the last first. -/
def behind (ls : List Lexeme) : List Token := (ls.map fun l => ⟨l, .point 0⟩).reverse

@[simp] theorem behind_nil : behind [] = [] := rfl

@[simp] theorem behind_append (ls ls' : List Lexeme) :
    behind (ls ++ ls') = behind ls' ++ behind ls := by
  rw [behind, List.map_append, List.reverse_append]
  rfl

@[simp] theorem behind_cons (l : Lexeme) (ls : List Lexeme) :
    behind (l :: ls) = behind ls ++ [⟨l, .point 0⟩] := List.reverse_cons

/-- Tokens before a string, read backwards. -/
theorem behind_eq {tokens : List Token} {ls : List Lexeme}
    (h : tokens.map (Lexeme.barred ∘ Token.lexeme) = ls) :
    tokens.reverse.map Token.barred = behind ls := by
  rw [← h, behind, List.map_map, ← List.map_reverse]
  rfl

/-! ## Bars for slashes -/

variable (ts : List Token)

theorem symbol?_barred (t : Token) : t.barred.symbol? = t.symbol?.map Symbol.barred := by
  obtain ⟨_ | _, _⟩ := t <;> rfl

theorem nearestSymbol?_barred :
    nearestSymbol? (ts.map Token.barred) = (nearestSymbol? ts).map Symbol.barred := by
  cases ts with
  | nil => rfl
  | cons t ts => exact symbol?_barred t

theorem barred_eq_dot {t : Token} {range : Span} (h : t.barred = ⟨.symbol .dot, range⟩) :
    t = ⟨.symbol .dot, t.range⟩ := by
  obtain ⟨_ | s, r⟩ := t
  · cases h
  · cases s <;> first | rfl | cases h

theorem barred_eq_string {t : Token} {value : String} {kind : StringKind} {range : Span}
    (h : t.barred = ⟨.string value kind, range⟩) : t = ⟨.string value kind, t.range⟩ := by
  obtain ⟨l, r⟩ := t
  obtain rfl : l = .string value kind := Lexeme.barred_eq_string (congrArg Token.lexeme h)
  rfl

theorem splitPath_point (r r' : Span) (value : String) (kind : StringKind) :
    (splitPath (⟨.symbol .dot, r⟩ :: ⟨.string value kind, r'⟩ :: ts)).2 = (splitPath ts).2 := rfl

theorem splitPath_barred :
    (splitPath (ts.map Token.barred)).2 = (splitPath ts).2.map Token.barred := by
  fun_induction splitPath ts with
  | case1 _ value kind _ before _ _ heq ih =>
    rw [heq] at ih
    exact ih
  | case2 before h =>
    unfold splitPath
    split
    · rename_i heq
      obtain ⟨t, rest, rfl, ht, hrest⟩ := List.map_eq_cons_iff.mp heq
      obtain ⟨u, rest, rfl, hu, -⟩ := List.map_eq_cons_iff.mp hrest
      rw [barred_eq_dot ht, barred_eq_string hu] at h
      exact absurd rfl (h _ _ _ _ _)
    · rfl

theorem dropMarks_barred : dropMarks (ts.map Token.barred) =
    ((dropMarks ts).1, (dropMarks ts).2.map Token.barred) := by
  induction ts with
  | nil => rfl
  | cons t ts ih =>
    obtain ⟨_ | s, _⟩ := t
    · rfl
    · cases s <;> first | rfl | exact ih | exact congrArg (true, Prod.snd ·) ih

theorem beforeRelation?_barred : beforeRelation? (ts.map Token.barred) =
    (beforeRelation? ts).map (List.map Token.barred) := by
  induction ts with
  | nil => rfl
  | cons t ts ih =>
    obtain ⟨_ | s, _⟩ := t
    · exact ih
    · cases s <;> first | rfl | exact ih

theorem contextOfUnion_barred : contextOfUnion (ts.map Token.barred) = contextOfUnion ts := by
  induction ts with
  | nil => rfl
  | cons t ts ih =>
    obtain ⟨_ | s, _⟩ := t
    · exact ih
    · cases s <;> first | rfl | exact ih

theorem subject?_barred : subject? (ts.map Token.barred) = subject? ts := by
  cases ts with
  | nil => rfl
  | cons t ts =>
    obtain ⟨⟨_, kind⟩ | s, _⟩ := t
    · cases kind with
      | word =>
        simp only [subject?, List.map_cons, Token.barred, Lexeme.barred, nearestSymbol?_barred]
        cases nearestSymbol? ts with
        | none => rfl
        | some s => cases s <;> rfl
      | apostrophe | doubleQuotes | backticks => rfl
    · rfl

theorem contextOfValues?_barred (source : Bool) :
    contextOfValues? (ts.map Token.barred) source = contextOfValues? ts source := by
  rw [contextOfValues?, contextOfValues?, beforeRelation?_barred]
  cases beforeRelation? ts with
  | none => rfl
  | some before => simp [subject?_barred]

/-- **A bar and a slash are the same** to what is expected, and places do not matter. -/
theorem contextBehind_barred : contextBehind (ts.map Token.barred) = contextBehind ts := by
  simp only [contextBehind, dropMarks_barred, nearestSymbol?_barred, contextOfValues?_barred,
    ← List.map_tail, contextOfUnion_barred]
  cases nearestSymbol? (dropMarks ts).2 with
  | none => rfl
  | some s => cases s <;> first | rfl | simp [Symbol.barred, opensValue, isRelation, markedKind?]

/-! ## Paths -/

variable {rest : List Token} {ls : List Lexeme}

theorem splitPath_points (rest : List Token) : ∀ xs : List Query.Part,
    (splitPath (behind (points xs) ++ rest)).2 = (splitPath rest).2
  | [] => rfl
  | x :: xs => by
    have ih := splitPath_points (⟨.symbol .dot, .point 0⟩ ::
      ⟨.string x.value x.kind, .point 0⟩ :: rest) xs
    rw [splitPath_point] at ih
    simpa [points] using ih

theorem splitPath_of_nearest (h : nearestSymbol? rest ≠ some .dot) : (splitPath rest).2 = rest := by
  unfold splitPath
  split
  · exact absurd rfl h
  · rfl

/-- A path is strings and points. -/
theorem mem_lexemes_path {p : Path} {l : Lexeme} (h : l ∈ p.script.lexemes) :
    l.isString = true ∨ l = .symbol .dot := by
  obtain ⟨x, hx, hl⟩ := List.mem_filterMap.mp h
  obtain rfl : x = some l := hl
  rw [Path.script_eq, List.mem_cons, List.mem_flatMap] at hx
  rcases hx with hx | ⟨q, _, hx⟩
  · exact .inl (Option.some.inj hx ▸ rfl)
  · simp only [List.mem_cons, List.not_mem_nil, or_false] at hx
    rcases hx with hx | hx
    · exact .inr (Option.some.inj hx)
    · exact .inl (Option.some.inj hx ▸ rfl)

/-- The walk behind a bar goes through strings, points and bars. -/
theorem contextOfUnion_append : ∀ {ls : List Lexeme} {rest : List Token},
    (∀ l ∈ ls, l.isString = true ∨ l = .symbol .dot ∨ l = .symbol .pipe) →
      contextOfUnion (behind ls ++ rest) = contextOfUnion rest
  | [], _, _ => rfl
  | l :: ls, rest, h => by
    obtain ⟨hl, hls⟩ := List.forall_mem_cons.mp h
    rw [behind_cons, List.append_assoc, List.singleton_append, contextOfUnion_append hls]
    rcases hl with hl | rfl | rfl
    · cases l with
      | string => rfl
      | symbol => cases hl
    · rfl
    · rfl

theorem contextOfUnion_path (p : Path) (rest : List Token) :
    contextOfUnion (behind p.script.lexemes ++ rest) = contextOfUnion rest :=
  contextOfUnion_append fun _ hl => (mem_lexemes_path hl).imp_right .inl

/-- The lexeme is a string, or may stand among values. -/
def IsInside (l : Lexeme) : Prop :=
  l.isString = true ∨ ∃ s, l = .symbol s ∧ isRelation s = false ∧ isInsideValues s = true

/-- The walk to a relation goes through what may stand among values. -/
theorem beforeRelation?_append : ∀ {ls : List Lexeme} {rest : List Token}, (∀ l ∈ ls, IsInside l) →
    beforeRelation? (behind ls ++ rest) = beforeRelation? rest
  | [], _, _ => rfl
  | l :: ls, rest, h => by
    obtain ⟨hl, hls⟩ := List.forall_mem_cons.mp h
    rw [behind_cons, List.append_assoc, List.singleton_append, beforeRelation?_append hls]
    rcases hl with hl | ⟨s, rfl, hrelation, hinside⟩
    · cases l with
      | string => rfl
      | symbol => cases hl
    · simp [beforeRelation?, Token.symbol?, hrelation, hinside]

/-! ## Marks -/

theorem dropMarks_of_nearest (h : nearestSymbol? rest ∉ [some .caret, some .plus, some .minus]) :
    dropMarks rest = (false, rest) := by
  unfold dropMarks
  split
  · exact absurd (.head _) h
  · exact absurd (.tail _ (.head _)) h
  · exact absurd (.tail _ (.tail _ (.head _))) h
  · rfl

theorem dropMarks_signs (h : nearestSymbol? rest ∉ [some .caret, some .plus, some .minus]) :
    ∀ (direction : Option Direction) (source : Bool),
      dropMarks (behind ((signs direction source).map .symbol) ++ rest) = (source, rest)
  | none, false => dropMarks_of_nearest h
  | none, true | some .ascending, false | some .ascending, true | some .descending, false
  | some .descending, true => by
    simp [signs, Direction.sign, dropMarks, dropMarks_of_nearest h]

theorem itemMarks_eq_signs (exclude source : Bool) :
    itemMarks exclude source = signs (if exclude then some .descending else none) source := by
  cases exclude <;> cases source <;> rfl

/-! ## Where an item ends -/

/-- Whether the symbol may stand at the end of an item, or between items. -/
def isClosing : Symbol → Bool
  | .rBrace | .rBracket | .rParen | .tildePlus | .tildeMinus | .amp => true
  | _ => false

/-- The last lexeme is a string or a symbol that may stand at the end of an item. -/
def Closes (ls : List Lexeme) : Prop :=
  ∃ l, ls.getLast? = some l ∧ ∀ s, l = .symbol s → isClosing s = true

/-- Nothing begins at the tokens: the nearest is a string, or may stand at the end of an item. -/
def Ends (before : List Token) : Prop := ∀ s, nearestSymbol? before = some s → isClosing s = true

theorem Closes.append_left (h : Closes ls) (ls' : List Lexeme) : Closes (ls' ++ ls) := by
  obtain ⟨l, hl, hclosing⟩ := h
  exact ⟨l, by rw [List.getLast?_append, hl]; rfl, hclosing⟩

theorem Closes.cons (h : Closes ls) (l : Lexeme) : Closes (l :: ls) := h.append_left [l]

theorem Closes.ends (h : Closes ls) (rest : List Token) : Ends (behind ls ++ rest) := by
  obtain ⟨l, hl, hclosing⟩ := h
  obtain ⟨init, rfl⟩ := List.getLast?_eq_some_iff.mp hl
  intro s hs
  refine hclosing s ?_
  rw [behind_append, behind_cons, behind_nil] at hs
  cases l with
  | string => cases hs
  | symbol u => exact congrArg Lexeme.symbol (Option.some.inj hs)

theorem closes_symbol {s : Symbol} (h : isClosing s = true) : Closes [.symbol s] :=
  ⟨_, rfl, fun _ hs => Lexeme.symbol.inj hs ▸ h⟩

theorem closes_path (p : Path) : Closes p.script.lexemes := by
  obtain ⟨q, hq⟩ := exists_getLast?_path p
  obtain ⟨init, hinit⟩ := List.getLast?_eq_some_iff.mp hq
  rw [hinit, Script.lexemes_append]
  exact Closes.append_left ⟨.string q.value q.kind, rfl, fun _ hs => by cases hs⟩ _

/-- Members that may stand at the end of an item. -/
theorem closes_separated {α : Type} {script : α → Script} (between : Script) {as : List α}
    (hne : as ≠ []) (h : ∀ a ∈ as, Closes (script a).lexemes) :
    Closes (Script.separated between (as.map script)).lexemes := by
  obtain ⟨init, a, rfl⟩ := (List.eq_nil_or_concat as).resolve_left hne
  rw [List.concat_eq_append, List.map_append, List.map_singleton, lexemes_separated_append]
  refine Closes.append_left ?_ _
  rw [List.flatMap_nil, List.append_nil]
  exact h a (by simp)

theorem closes_predicate {p : Predicate} (h : p.IsComplete) : Closes p.script.lexemes := by
  match p, h with
  | .values vs, h =>
    refine closes_separated [Script.sym .comma] h fun v _ => ?_
    rw [lexemes_value]
    exact (closes_path v.path).append_left _
  | .collection ps, _ =>
    rw [Predicate.script, Script.lexemes_sym, Script.lexemes_append]
    exact ((closes_symbol (s := .rBrace) rfl).append_left _).cons _
  | .range ⟨first, last, none⟩, _ =>
    rw [Predicate.script, RangeLiteral.script, Script.lexemes_append, Script.lexemes_sym]
    exact ((closes_path last).cons _).append_left _
  | .range ⟨first, last, some ⟨opening, closing⟩⟩, _ =>
    have hclosing : Closes [.symbol (if closing then .rBracket else .rParen)] := by
      cases closing <;> exact closes_symbol rfl
    rw [Predicate.script, RangeLiteral.script, Script.lexemes_sym, Script.lexemes_append,
      Script.lexemes_sym, Script.lexemes_append]
    exact (((hclosing.append_left _).cons _).append_left _).cons _

theorem closes_phrase {p : Phrase} (h : ∀ r, p.relation = some r → r.IsComplete) :
    Closes p.script.lexemes := by
  obtain ⟨subject, relation, range⟩ := p
  rw [Phrase.script, Script.lexemes_append]
  cases relation with
  | none => simpa using closes_path subject
  | some r =>
    cases r with
    | binary family predicate _ => exact ((closes_predicate (h _ rfl)).cons _).append_left _
    | unary direction _ =>
      cases direction with
      | ascending => exact (closes_symbol (s := .tildePlus) rfl).append_left _
      | descending => exact (closes_symbol (s := .tildeMinus) rfl).append_left _

theorem closes_item {i : Item} (h : i.IsComplete) : Closes i.script.lexemes := by
  rw [lexemes_item, Element.script, Script.lexemes_append]
  have hphrases := closes_separated [Script.sym .pipe] h.1 fun p hp => closes_phrase (h.2 p hp)
  exact (hphrases.append_left _).append_left _

theorem ends_joined {js : List (Bool × Item)} (h : ∀ j ∈ js, j.2.IsComplete) (amp : Bool) :
    Ends (behind (joined js ++ joint amp)) := by
  cases amp with
  | true =>
    rw [behind_append]
    exact (closes_symbol (s := .amp) rfl).ends _
  | false =>
    rcases List.eq_nil_or_concat js with rfl | ⟨init, ⟨amp, i⟩, rfl⟩
    · exact fun _ hs => by cases hs
    · rw [List.concat_eq_append] at h ⊢
      have hi : Closes i.script.lexemes := closes_item (h (amp, i) (by simp))
      rw [joined_concat]
      simpa [joint] using ((hi.append_left (joint amp)).append_left (joined init)).ends []

end Place

end PixQuery
