import PixQuery.Proofs.Grammar.Halting
import PixQuery.Proofs.Grammar.Ranges

/-!
# Beginning anew behind an error

Behind an error the stack is empty and the tokens are skipped up to the first that can be read in
the first state, so parsing goes on as if the text began there. Only the tokens that are left and
the place where they end count: the fuel and what was read before do not. To tell errors apart, each
is taken with the number of tokens in front of where the parser stood, its position.

Results:
* `faultsLeft_cases`: the faults of a run are the first and those of a run from the next beginning.
* `restarts_placedErrors`: so are the errors of parsing, with their positions.
* `parse_restarts`: behind the first error there are the errors of parsing what is left; positions
  grow from error to error, and only the last error can be at the end.
-/

namespace PixQuery

/-- A fault, and how many tokens there are in front of where it was met. -/
structure PlacedFault where
  position : Nat
  fault : SyntaxFault
  deriving Repr, DecidableEq

/-- The fault with `n` more tokens in front of it. -/
def PlacedFault.shift (n : Nat) (p : PlacedFault) : PlacedFault := ⟨p.position + n, p.fault⟩

namespace Parser

variable {g : Grammar} {stop : Nat} {c c' : Configuration} {tokens : List Token}

/-! ## The faults of a run -/

/-- The fault that a step met, if it did, with the tokens that were left. -/
def faultOfStep (g : Grammar) (stop : Nat) (c : Configuration) : List (List Token × SyntaxFault) :=
  ((step g stop c).event.bind ParseEvent.fault?).toList.map fun f => (c.rest, f)

/-- The faults of at most `fuel` steps, each with the tokens that were left when it was met. -/
def faultsLeft (g : Grammar) (stop : Nat) :
    (fuel : Nat) → Configuration → List (List Token × SyntaxFault)
  | 0, _ => []
  | n + 1, c =>
    faultOfStep g stop c ++
      match (step g stop c).outcome with
      | .stop _ => []
      | .go next => faultsLeft g stop n next

theorem faultsLeft_of_stop {tree : Option Tree} (h : (step g stop c).outcome = .stop tree)
    (fuel : Nat) : faultsLeft g stop (fuel + 1) c = faultOfStep g stop c := by
  simp only [faultsLeft, h, List.append_nil]

theorem faultsLeft_of_go (h : (step g stop c).outcome = .go c') (fuel : Nat) :
    faultsLeft g stop (fuel + 1) c = faultOfStep g stop c ++ faultsLeft g stop fuel c' := by
  simp only [faultsLeft, h]

theorem map_faultOfStep : (faultOfStep g stop c).map Prod.snd =
    (step g stop c).event.toList.filterMap ParseEvent.fault? := by
  unfold faultOfStep
  cases (step g stop c).event with
  | none => rfl
  | some e => cases h : e.fault? <;> simp [h]

/-- They are the faults that the run met. -/
theorem map_faultsLeft (g : Grammar) (stop : Nat) : ∀ (fuel : Nat) (c : Configuration),
    (faultsLeft g stop fuel c).map Prod.snd = faultsOf (run g stop fuel c)
  | 0, _ => rfl
  | n + 1, c => by
    cases hout : (step g stop c).outcome with
    | stop tree => rw [faultsLeft_of_stop hout, run_of_stop hout, map_faultOfStep, faultsOf]
    | go next =>
      rw [faultsLeft_of_go hout, run_of_go hout, List.map_append, map_faultOfStep,
        map_faultsLeft g stop n next, faultsOf, faultsOf, List.filterMap_append]

/-- **Fuel does not count** from where the parser comes to an end. -/
theorem HaltsIn.faultsLeft_eq {n : Nat} (h : HaltsIn g stop n c) :
    ∀ fuel, n ≤ fuel → faultsLeft g stop fuel c = faultsLeft g stop n c := by
  induction h with
  | stop hstop =>
    intro fuel hfuel
    obtain ⟨fuel, rfl⟩ := Nat.exists_eq_add_of_le' hfuel
    rw [faultsLeft_of_stop hstop, faultsLeft_of_stop hstop]
  | go hgo _ ih =>
    intro fuel hfuel
    obtain ⟨fuel, rfl⟩ := Nat.exists_eq_add_of_le' (Nat.le_trans (Nat.le_add_left 1 _) hfuel)
    rw [faultsLeft_of_go hgo, faultsLeft_of_go hgo, ih fuel (Nat.le_of_succ_le_succ hfuel)]

theorem suffix_of_mem_faultsLeft {f : List Token × SyntaxFault} :
    ∀ {fuel : Nat} {c : Configuration}, f ∈ faultsLeft g stop fuel c → f.1 <:+ c.rest
  | 0, _, h => absurd h List.not_mem_nil
  | fuel + 1, c, h => by
    rcases List.mem_append.mp h with h | h
    · obtain ⟨_, _, rfl⟩ := List.mem_map.mp h
      exact List.suffix_rfl
    · split at h
      · exact absurd h List.not_mem_nil
      · rename_i next hnext
        exact (suffix_of_mem_faultsLeft h).trans (rest_suffix_of_step hnext)

/-! ## The first fault and the others -/

/-- What there is behind a fault that was met before `rest`: nothing when no token is left with
which parsing can begin anew, and otherwise the faults of a run from there that comes to an end. -/
inductive Continues (g : Grammar) (stop : Nat) (rest : List Token) :
    List (List Token × SyntaxFault) → Prop
  | spent (h : recover g rest = []) : Continues g stop rest []
  | anew {n : Nat} (hne : recover g rest ≠ []) (h : HaltsIn g stop n ⟨[], recover g rest⟩) :
      Continues g stop rest (faultsLeft g stop n ⟨[], recover g rest⟩)

/-- **The faults of a run** that comes to an end: none, or a first one, met before some of the
tokens that were left, and those of a run that begins anew behind it. -/
theorem HaltsIn.faultsLeft_cases (hg : g.IsBuilt) {n : Nat} (h : HaltsIn g stop n c)
    (hs : Spells g.productions c.stack) :
    faultsLeft g stop n c = [] ∨ ∃ rest state more, rest <:+ c.rest ∧ Continues g stop rest more ∧
      faultsLeft g stop n c = (rest, faultAt g stop state rest) :: more := by
  induction h with
  | @stop c tree hstop =>
    rw [faultsLeft_of_stop hstop, faultOfStep]
    have heffect := effect_step hg hs stop
    generalize step g stop c = s at heffect hstop
    cases heffect with
    | shift => exact .inl rfl
    | reduce => exact .inl rfl
    | accept => exact .inl rfl
    | fault =>
      refine .inr ⟨c.rest, top c.stack, [], List.suffix_rfl, .spent ?_, rfl⟩
      simp only [recovery] at hstop
      split at hstop
      · assumption
      · cases hstop
  | @go n c c' hgo hn ih =>
    have ih := ih (spells_of_go hg hs hgo)
    rw [faultsLeft_of_go hgo, faultOfStep]
    have heffect := effect_step hg hs stop
    generalize step g stop c = s at heffect hgo
    cases heffect with
    | shift hrest =>
      obtain rfl := Outcome.go.inj hgo
      rcases ih with hnone | ⟨rest, state, more, hsuffix, hmore, heq⟩
      · exact .inl hnone
      · exact .inr ⟨rest, state, more, hrest ▸ hsuffix.trans (List.suffix_cons _ _), hmore, heq⟩
    | reduce =>
      obtain rfl := Outcome.go.inj hgo
      exact ih
    | accept => cases hgo
    | fault =>
      -- the run that follows begins with an empty stack
      simp only [recovery] at hgo
      split at hgo
      · cases hgo
      · rename_i hne
        obtain rfl := Outcome.go.inj hgo
        exact .inr ⟨c.rest, top c.stack, _, List.suffix_rfl, .anew hne hn, rfl⟩

/-! ## Where parsing begins anew -/

theorem startsSentence_iff {t : Token} : startsSentence g t = true ↔
    ∃ n, g.table.action 0 t.terminal = some (.shift n) := by
  unfold startsSentence
  split <;> simp_all

end Parser

namespace Grammar

variable {g : Grammar} {tokens : List Token} {i j : Nat} {fault : SyntaxFault}

/-- The first token behind the one with the number `i` that can be read in the first state. -/
structure IsNextStart (g : Grammar) (tokens : List Token) (i j : Nat) : Prop where
  behind : i < j
  starts : ∃ t n, tokens[j]? = some t ∧ g.table.action 0 t.terminal = some (.shift n)
  skipped : ∀ k, i < k → k < j → ∀ t n, tokens[k]? = some t →
    g.table.action 0 t.terminal ≠ some (.shift n)

theorem IsNextStart.lt_length (h : IsNextStart g tokens i j) : j < tokens.length := by
  obtain ⟨_, _, ht, _⟩ := h.starts
  exact (List.getElem?_eq_some_iff.mp ht).1

theorem IsNextStart.unique {j' : Nat} (h : IsNextStart g tokens i j)
    (h' : IsNextStart g tokens i j') : j = j' := by
  obtain ⟨t, n, ht, haction⟩ := h.starts
  obtain ⟨t', n', ht', haction'⟩ := h'.starts
  rcases Nat.lt_trichotomy j j' with hlt | heq | hgt
  · exact absurd haction (h'.skipped j h.behind hlt t n ht)
  · exact heq
  · exact absurd haction' (h.skipped j' h'.behind hgt t' n' ht')

/-- Parsing begins anew at the next token that can be read in the first state. -/
theorem IsNextStart.recover_eq (h : IsNextStart g tokens i j) :
    Parser.recover g (tokens.drop i) = tokens.drop j := by
  obtain ⟨t, n, ht, haction⟩ := h.starts
  have hj := h.lt_length
  have hi := h.behind
  have hfront : tokens.drop (i + 1) =
      (tokens.drop (i + 1)).take (j - (i + 1)) ++ tokens.drop j := by
    conv => lhs; rw [← List.take_append_drop (j - (i + 1)) (tokens.drop (i + 1))]
    rw [List.drop_drop, Nat.add_sub_cancel' hi]
  have hskipped : ∀ x ∈ (tokens.drop (i + 1)).take (j - (i + 1)),
      (!Parser.startsSentence g x) = true := by
    intro x hx
    obtain ⟨k, hk, rfl⟩ := List.getElem_of_mem hx
    rw [List.length_take, List.length_drop] at hk
    rw [Bool.not_eq_true', ← Bool.not_eq_true, Parser.startsSentence_iff]
    rintro ⟨n, hn⟩
    refine h.skipped (i + 1 + k) (by omega) (by omega) _ n ?_ hn
    rw [List.getElem_take, List.getElem_drop, List.getElem?_eq_getElem]
  have hhead : tokens.drop j = t :: tokens.drop (j + 1) := by
    rw [List.drop_eq_getElem_cons hj, (List.getElem?_eq_some_iff.mp ht).2]
  have hstarts : Parser.startsSentence g t = true := Parser.startsSentence_iff.mpr ⟨n, haction⟩
  rw [List.drop_eq_getElem_cons (hi.trans hj), Parser.recover, hfront,
    List.dropWhile_append_of_pos hskipped, hhead, List.dropWhile_cons_of_neg (by simp [hstarts])]

/-- There is such a token, or parsing does not begin anew. -/
theorem exists_isNextStart (g : Grammar) (tokens : List Token) (i : Nat) :
    (∃ j, IsNextStart g tokens i j) ∨ Parser.recover g (tokens.drop i) = [] := by
  rcases Nat.lt_or_ge i tokens.length with hi | hi
  swap
  · exact .inr (by rw [List.drop_eq_nil_of_le hi]; rfl)
  have hnext : ∀ k, (tokens.drop (i + 1))[k]? = tokens[i + 1 + k]? := fun k => List.getElem?_drop
  generalize hk : (tokens.drop (i + 1)).findIdx (Parser.startsSentence g) = k
  rcases Nat.lt_or_ge k (tokens.drop (i + 1)).length with hlt | hge
  · refine .inl ⟨i + 1 + k, by omega, ?_, fun m hm hmk t n ht haction => ?_⟩
    · subst hk
      have hstarts := List.findIdx_getElem (w := hlt)
      obtain ⟨n, hn⟩ := Parser.startsSentence_iff.mp hstarts
      exact ⟨_, n, by rw [← hnext, List.getElem?_eq_getElem hlt], hn⟩
    · have hm' : i + 1 + (m - (i + 1)) = m := by omega
      have hfound : m - (i + 1) < (tokens.drop (i + 1)).findIdx (Parser.startsSentence g) := by
        omega
      have hnot := List.not_of_lt_findIdx hfound
      have hget : (tokens.drop (i + 1))[m - (i + 1)]? = some t := by rw [hnext, hm', ht]
      obtain ⟨_, hget⟩ := List.getElem?_eq_some_iff.mp hget
      rw [hget] at hnot
      exact absurd (Parser.startsSentence_iff.mpr ⟨n, haction⟩) (by simp [hnot])
  · refine .inr ?_
    rw [List.drop_eq_getElem_cons hi, Parser.recover, List.dropWhile_eq_drop_findIdx_not]
    simp only [Bool.not_not]
    exact List.drop_eq_nil_of_le (hk ▸ hge)

/-! ## The errors of parsing -/

/-- The fault is about the token with the number `i`, or about the end of the tokens. -/
def IsAt (tokens : List Token) (i : Nat) : SyntaxFault → Prop
  | .unexpectedToken text _ range => ∃ t, tokens[i]? = some t ∧ t.text = text ∧ t.range = range
  | .unexpectedEnd _ position => i = tokens.length ∧ position = Parser.stopOf tokens

theorem isAt_faultAt (state : Nat) (hi : i ≤ tokens.length) :
    IsAt tokens i (Parser.faultAt g (Parser.stopOf tokens) state (tokens.drop i)) := by
  unfold Parser.faultAt
  cases hrest : tokens.drop i with
  | nil => exact ⟨Nat.le_antisymm hi (List.drop_eq_nil_iff.mp hrest), rfl⟩
  | cons t ts =>
    refine ⟨t, ?_, rfl, rfl⟩
    rw [← List.head?_drop, hrest, List.head?_cons]

theorem IsAt.le_length (h : IsAt tokens i fault) : i ≤ tokens.length := by
  cases fault with
  | unexpectedToken text expected range =>
    obtain ⟨_, ht, _⟩ := h
    exact (List.getElem?_eq_some_iff.mp ht).1.le
  | unexpectedEnd expected position => exact h.1.le

/-- Tokens end where those that are left of them end. -/
theorem stopOf_drop (hj : j < tokens.length) :
    Parser.stopOf (tokens.drop j) = Parser.stopOf tokens := by
  rw [Parser.stopOf, Parser.stopOf, List.getLast?_drop, if_neg (Nat.not_le.mpr hj)]

theorem IsAt.of_drop (hj : j < tokens.length) (h : IsAt (tokens.drop j) i fault) :
    IsAt tokens (i + j) fault := by
  cases fault with
  | unexpectedToken text expected range =>
    obtain ⟨t, ht, htext, hrange⟩ := h
    rw [List.getElem?_drop, Nat.add_comm] at ht
    exact ⟨t, ht, htext, hrange⟩
  | unexpectedEnd expected position =>
    obtain ⟨hlen, hstop⟩ := h
    rw [List.length_drop] at hlen
    exact ⟨by omega, hstop.trans (stopOf_drop hj)⟩

/-- A fault with its position, from those of the tokens that were left. -/
def placed (tokens : List Token) (f : List Token × SyntaxFault) : PlacedFault :=
  ⟨tokens.length - f.1.length, f.2⟩

theorem placed_drop (i : Nat) : placed tokens (tokens.drop i, fault) =
    ⟨min i tokens.length, fault⟩ := by
  simp only [placed, List.length_drop, PlacedFault.mk.injEq, and_true]
  omega

theorem placed_of_suffix (hj : j ≤ tokens.length) {f : List Token × SyntaxFault}
    (h : f.1 <:+ tokens.drop j) : placed tokens f = (placed (tokens.drop j) f).shift j := by
  have hle := h.length_le
  simp only [placed, PlacedFault.shift, List.length_drop, PlacedFault.mk.injEq, and_true] at hle ⊢
  omega

/-- The errors of parsing tokens, each with its position. -/
def placedErrors (g : Grammar) (tokens : List Token) : List PlacedFault :=
  if tokens.isEmpty then []
  else
    (Parser.faultsLeft g (Parser.stopOf tokens) (Parser.fuelFor g tokens) ⟨[], tokens⟩).map
      (placed tokens)

/-- They are the errors that are reported. -/
theorem map_placedErrors (g : Grammar) (tokens : List Token) :
    (g.placedErrors tokens).map PlacedFault.fault = (g.parse tokens).errors := by
  by_cases hne : tokens = []
  · subst hne
    rfl
  · rw [placedErrors, if_neg (by simpa using hne), List.map_map, errors_parse hne,
      ← Parser.map_faultsLeft]
    rfl

theorem placedErrors_of_haltsIn (hg : g.IsBuilt) (hne : tokens ≠ []) {n : Nat}
    (hn : Parser.HaltsIn g (Parser.stopOf tokens) n ⟨[], tokens⟩) :
    g.placedErrors tokens =
      (Parser.faultsLeft g (Parser.stopOf tokens) n ⟨[], tokens⟩).map (placed tokens) := by
  rw [placedErrors, if_neg (by simpa using hne), hn.faultsLeft_eq _ (hn.le_fuelFor hg)]

/-- Errors with their positions, beginning by beginning: none, one behind which parsing does not
begin anew, or one and behind it those of parsing what is left from the next beginning on. -/
inductive Restarts (g : Grammar) : List Token → List PlacedFault → Prop
  | clean {tokens : List Token} : Restarts g tokens []
  | last {tokens : List Token} {i : Nat} {fault : SyntaxFault} (hat : IsAt tokens i fault)
      (hnone : ∀ j, ¬ IsNextStart g tokens i j) : Restarts g tokens [⟨i, fault⟩]
  | again {tokens : List Token} {i j : Nat} {fault : SyntaxFault} (hat : IsAt tokens i fault)
      (hstart : IsNextStart g tokens i j) (hhalts : Parser.Halts g (tokens.drop j))
      (hmore : Restarts g (tokens.drop j) (g.placedErrors (tokens.drop j))) :
      Restarts g tokens (⟨i, fault⟩ :: (g.placedErrors (tokens.drop j)).map (.shift j))

/-- **The errors of parsing**, beginning by beginning, when the parser comes to an end. -/
theorem restarts_placedErrors (hg : g.IsBuilt) (h : Parser.Halts g tokens) :
    Restarts g tokens (g.placedErrors tokens) := by
  induction hlen : tokens.length using Nat.strong_induction_on generalizing tokens with
  | _ len ih =>
    subst hlen
    by_cases hne : tokens = []
    · subst hne
      exact .clean
    obtain ⟨n, hn⟩ := h hne
    rw [placedErrors_of_haltsIn hg hne hn]
    rcases hn.faultsLeft_cases hg .nil with hnone | ⟨rest, state, more, hsuffix, hmore, heq⟩
    · rw [hnone]
      exact .clean
    obtain ⟨i, hi, rfl⟩ : ∃ i ≤ tokens.length, tokens.drop i = rest := by
      obtain ⟨read, rfl⟩ := hsuffix
      exact ⟨read.length, by simp, List.drop_left⟩
    have hat := isAt_faultAt (g := g) state hi
    rw [heq, List.map_cons, placed_drop, Nat.min_eq_left hi]
    cases hmore with
    | spent hrecover =>
      refine .last hat fun j hj => ?_
      rw [hj.recover_eq] at hrecover
      exact absurd (List.drop_eq_nil_iff.mp hrecover) (Nat.not_le.mpr hj.lt_length)
    | @anew m hrecover hm =>
      obtain ⟨j, hj⟩ := (exists_isNextStart g tokens i).resolve_right hrecover
      have hlt := hj.lt_length
      have hdrop : tokens.drop j ≠ [] := fun hnil =>
        absurd (List.drop_eq_nil_iff.mp hnil) (Nat.not_le.mpr hlt)
      rw [← stopOf_drop hlt, hj.recover_eq] at hm
      have hhalts : Parser.Halts g (tokens.drop j) := fun _ => ⟨m, hm⟩
      have hmore : (Parser.faultsLeft g (Parser.stopOf tokens) m
          ⟨[], Parser.recover g (tokens.drop i)⟩).map (placed tokens) =
            (g.placedErrors (tokens.drop j)).map (.shift j) := by
        rw [placedErrors_of_haltsIn hg hdrop hm, List.map_map, hj.recover_eq, stopOf_drop hlt]
        exact List.map_congr_left fun f hf =>
          placed_of_suffix hlt.le (Parser.suffix_of_mem_faultsLeft hf)
      have hshorter : (tokens.drop j).length < tokens.length := by
        have := hj.behind
        rw [List.length_drop]
        omega
      rw [hmore]
      exact .again hat hj hhalts (ih _ hshorter hhalts rfl)

variable {errors : List PlacedFault}

/-- What there is behind the first error. -/
theorem Restarts.more {more : List PlacedFault} (h : Restarts g tokens (⟨i, fault⟩ :: more)) :
    (∃ j, IsNextStart g tokens i j ∧ Parser.Halts g (tokens.drop j) ∧
      more.map PlacedFault.fault = (g.parse (tokens.drop j)).errors) ∨
    ((∀ j, ¬ IsNextStart g tokens i j) ∧ more = []) := by
  cases h with
  | last _ hnone => exact .inr ⟨hnone, rfl⟩
  | @again _ _ j _ _ hstart hhalts =>
    refine .inl ⟨j, hstart, hhalts, ?_⟩
    rw [List.map_map, ← map_placedErrors]
    rfl

/-- Every error is about the token at its position, or about the end. -/
theorem Restarts.isAt (h : Restarts g tokens errors) :
    ∀ p ∈ errors, IsAt tokens p.position p.fault := by
  induction h with
  | clean => exact fun p hp => absurd hp List.not_mem_nil
  | last hat _ => exact fun p hp => List.mem_singleton.mp hp ▸ hat
  | again hat hstart _ _ ih =>
    refine List.forall_mem_cons.mpr ⟨hat, fun p hp => ?_⟩
    obtain ⟨q, hq, rfl⟩ := List.mem_map.mp hp
    exact (ih q hq).of_drop hstart.lt_length

/-- **Positions grow** from error to error. -/
theorem Restarts.pairwise (h : Restarts g tokens errors) :
    errors.Pairwise fun p q => p.position < q.position := by
  induction h with
  | clean => exact .nil
  | last => exact List.pairwise_singleton _ _
  | again _ hstart _ _ ih =>
    refine List.pairwise_cons.mpr ⟨fun p hp => ?_, ?_⟩
    · obtain ⟨q, _, rfl⟩ := List.mem_map.mp hp
      exact Nat.lt_of_lt_of_le hstart.behind (Nat.le_add_left _ _)
    · exact List.pairwise_map.mpr (ih.imp fun hlt => Nat.add_lt_add_right hlt _)

/-- **Only the last error can be about the end.** -/
theorem Restarts.eq_nil_of_end (h : Restarts g tokens errors) {before after : List PlacedFault}
    {i stop : Nat} {expected : List String}
    (heq : errors = before ++ ⟨i, .unexpectedEnd expected stop⟩ :: after) : after = [] := by
  subst heq
  cases after with
  | nil => rfl
  | cons p after =>
    have hend := h.isAt ⟨i, .unexpectedEnd expected stop⟩ (by simp)
    have hnext := (h.isAt p (by simp)).le_length
    have hlt := (List.pairwise_cons.mp (List.pairwise_append.mp h.pairwise).2.1).1 p
      List.mem_cons_self
    exact absurd (Nat.lt_of_lt_of_le hlt hnext) (Nat.not_lt.mpr hend.1.ge)

/-- **Behind the first error parsing begins anew.** In a grammar that was read from a text, and with
tokens on which the parser comes to an end, the errors stand at growing positions, each about the
token there, and only the last can be about the end. When the first of them is about the token with
the number `i`, the others are those of parsing the tokens from the first one on behind it that can
be read in the first state; where there is none, there are no others. -/
theorem parse_restarts {text : String} (hg : ofText text = .ok g) (hhalts : Parser.Halts g tokens) :
    (g.placedErrors tokens).map PlacedFault.fault = (g.parse tokens).errors ∧
    (∀ i fault more, g.placedErrors tokens = ⟨i, fault⟩ :: more →
      (∀ j, IsNextStart g tokens i j → Parser.Halts g (tokens.drop j) ∧
        (g.parse tokens).errors = fault :: (g.parse (tokens.drop j)).errors) ∧
      ((∀ j, ¬ IsNextStart g tokens i j) → (g.parse tokens).errors = [fault])) ∧
    (∀ p ∈ g.placedErrors tokens, IsAt tokens p.position p.fault) ∧
    (g.placedErrors tokens).Pairwise (fun p q => p.position < q.position) ∧
    (∀ before after expected stop,
      (g.parse tokens).errors = before ++ .unexpectedEnd expected stop :: after → after = []) := by
  have hrestarts := restarts_placedErrors (isBuilt_of_ofText hg) hhalts
  have herrors := map_placedErrors g tokens
  refine ⟨herrors, fun i fault more hplaced => ?_, hrestarts.isAt, hrestarts.pairwise,
    fun before after expected stop heq => ?_⟩
  · rw [hplaced] at hrestarts
    rw [← herrors, hplaced, List.map_cons]
    rcases hrestarts.more with ⟨j, hj, hhalts, hmore⟩ | ⟨hnone, rfl⟩
    · refine ⟨fun j' hj' => ?_, fun hnone => absurd hj (hnone j)⟩
      obtain rfl := hj'.unique hj
      exact ⟨hhalts, by rw [hmore]⟩
    · exact ⟨fun j hj => absurd hj (hnone j), fun _ => rfl⟩
  · rw [← herrors] at heq
    obtain ⟨before, more, hplaced, _, hmore⟩ := List.map_eq_append_iff.mp heq
    obtain ⟨⟨i, fault⟩, after, rfl, rfl, rfl⟩ := List.map_eq_cons_iff.mp hmore
    rw [hrestarts.eq_nil_of_end hplaced, List.map_nil]

/-- The tokens of `+ a b c +`. -/
def brokenSums : List Token :=
  [⟨.symbol .plus, .between 0 1⟩, ⟨.string "a" .word, .between 2 3⟩,
    ⟨.string "b" .word, .between 4 5⟩, ⟨.string "c" .word, .between 6 7⟩,
    ⟨.symbol .plus, .between 8 9⟩]

/-- `+ a b c +` has an error at the first `+`, and behind it those of `a b c +`: one at `b`, and one
at the end of `c +`. -/
theorem parse_restarts_brokenSums :
    Parser.Halts sums brokenSums ∧ IsNextStart sums brokenSums 0 1 ∧
      (sums.parse brokenSums).errors =
        .unexpectedToken "+" ["str"] (.between 0 1) :: (sums.parse (brokenSums.drop 1)).errors := by
  have hhalts : Parser.Halts sums brokenSums := fun _ =>
    (Parser.halts (isBuilt_of_ofText ofText_sumText) productive_sums brokenSums).imp fun _ h => h.2
  have hstart : IsNextStart sums brokenSums 0 1 :=
    ⟨by decide, ⟨_, 2, rfl, by decide⟩, fun k hk hk' => by omega⟩
  have hplaced : sums.placedErrors brokenSums =
      [⟨0, .unexpectedToken "+" ["str"] (.between 0 1)⟩,
        ⟨2, .unexpectedToken "b" ["+", eof] (.between 4 5)⟩, ⟨5, .unexpectedEnd ["str"] 9⟩] := by
    decide
  exact ⟨hhalts, hstart,
    (((parse_restarts ofText_sumText hhalts).2.1 _ _ _ hplaced).1 1 hstart).2⟩

end Grammar

end PixQuery
