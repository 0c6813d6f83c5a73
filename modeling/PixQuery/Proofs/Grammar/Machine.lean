import PixQuery.Proofs.Grammar.Derivation
import PixQuery.Proofs.Grammar.Table

/-!
# The parser without tokens

`Bare` is the parser of derivations: it sees only the terminals of the tokens, and keeps derivations
on its stack. It moves on sentences for which no tokens exist, and it stops where the parser would
accept or meet an error. The parser does on tokens what `Bare` does on their terminals.

Results:
* `Moves.unique`: where the moves from a configuration end, and after how many, is determined.
* `run_of_moves`: the parser makes as many steps as `Bare` makes moves, without a fault.
-/

namespace PixQuery

/-- A derivation on the stack and the state behind it. -/
structure Entry where
  state : Nat
  derivation : Derivation
  deriving Repr, Inhabited

/-- The stack, its top first, and the terminals that are left. -/
structure Bare where
  stack : List Entry
  rest : List String
  deriving Repr, Inhabited

namespace Bare

variable {g : Grammar}

/-- The state on top of a stack. -/
def top (stack : List Entry) : Nat := (stack.head?.map Entry.state).getD 0

/-- The next terminal, or the end of the sentence. -/
def ahead (rest : List String) : String := rest.head?.getD Grammar.eof

/-- Read the next terminal or apply a production. -/
def next? (g : Grammar) (c : Bare) : Option Bare :=
  match g.table.action (top c.stack) (ahead c.rest) with
  | some (.shift n) =>
    match c.rest with
    | [] => none
    | t :: ts => some ⟨⟨n, .leaf t⟩ :: c.stack, ts⟩
  | some (.reduce n) => do
    let p ← g.production? n
    let below := c.stack.drop p.body.length
    let m ← g.table.goto (top below) p.key
    let children := (c.stack.take p.body.length).reverse.map Entry.derivation
    return ⟨⟨m, .node n children⟩ :: below, c.rest⟩
  | some .accept | none => none

/-- A number of moves. -/
inductive Moves (g : Grammar) : Nat → Bare → Bare → Prop
  | refl (c : Bare) : Moves g 0 c c
  | step {n : Nat} {c d e : Bare} (h : next? g c = some d) (hd : Moves g n d e) :
      Moves g (n + 1) c e

theorem Moves.single {c d : Bare} (h : next? g c = some d) : Moves g 1 c d := .step h (.refl d)

theorem Moves.trans {m n : Nat} {c d e : Bare} (h : Moves g m c d) (hd : Moves g n d e) :
    Moves g (m + n) c e := by
  induction h with
  | refl => rwa [Nat.zero_add]
  | step hs _ ih =>
    rw [Nat.succ_add_eq_add_succ]
    exact .step hs (ih hd)

/-- **Moves are determined**: where they end, and after how many. -/
theorem Moves.unique {m n : Nat} {c d e : Bare} (h : Moves g m c d) (h' : Moves g n c e)
    (hd : next? g d = none) (he : next? g e = none) : m = n ∧ d = e := by
  induction h generalizing n with
  | refl c =>
    cases h' with
    | refl => exact ⟨rfl, rfl⟩
    | step hs _ => rw [hd] at hs; cases hs
  | step hs _ ih =>
    cases h' with
    | refl => rw [he] at hs; cases hs
    | step hs' hm =>
      obtain rfl := Option.some.inj (hs.symm.trans hs')
      obtain ⟨rfl, rfl⟩ := ih hm hd
      exact ⟨rfl, rfl⟩

/-! ## The parser follows -/

/-- A frame without its tokens. -/
def ofFrame (f : Parser.Frame) : Entry := ⟨f.state, f.tree.derivation⟩

/-- A configuration of the parser without its tokens. -/
def ofConfiguration (c : Parser.Configuration) : Bare :=
  ⟨c.stack.map ofFrame, c.rest.map Token.terminal⟩

theorem top_ofFrame (stack : List Parser.Frame) :
    top (stack.map ofFrame) = Parser.top stack := by
  cases stack <;> rfl

theorem ahead_terminal (rest : List Token) :
    ahead (rest.map Token.terminal) = Parser.lookahead rest := by
  cases rest <;> rfl

theorem derivations_ofFrame (stack : List Parser.Frame) :
    Tree.derivations (stack.reverse.map Parser.Frame.tree) =
      (stack.map ofFrame).reverse.map Entry.derivation := by
  rw [Tree.derivations_eq_map, List.map_map, ← List.map_reverse, List.map_map]
  rfl

/-- **The parser follows a move** with a step that meets no fault. -/
theorem step_of_next {c : Parser.Configuration} {d : Bare} (stop : Nat)
    (h : next? g (ofConfiguration c) = some d) :
    ∃ event c', Parser.step g stop c = ⟨some event, .go c'⟩ ∧ event.fault? = none ∧
      ofConfiguration c' = d := by
  unfold next? at h
  simp only [ofConfiguration, top_ofFrame, ahead_terminal] at h
  unfold Parser.step
  split at h
  · rename_i n haction
    simp only [haction, Parser.shift]
    cases hrest : c.rest with
    | nil => rw [hrest] at h; cases h
    | cons t ts =>
      rw [hrest] at h
      obtain rfl := Option.some.inj h
      exact ⟨_, _, rfl, rfl, rfl⟩
  · rename_i n haction
    simp only [Option.bind_eq_bind, Option.bind_eq_some_iff, ← List.map_drop, top_ofFrame] at h
    obtain ⟨p, hp, m, hm, h⟩ := h
    obtain rfl := Option.some.inj h
    simp only [haction, Parser.reduce, hp, hm]
    refine ⟨_, _, rfl, rfl, ?_⟩
    simp only [ofConfiguration, List.map_cons, ofFrame, Tree.derivation, derivations_ofFrame,
      List.map_take]
  · cases h
  · cases h

/-- **The parser follows all moves.** -/
theorem run_of_moves {n : Nat} {b d : Bare} (stop : Nat) (h : Moves g n b d) :
    ∀ {c : Parser.Configuration}, ofConfiguration c = b → ∃ c' events, ofConfiguration c' = d ∧
      events.filterMap ParseEvent.fault? = [] ∧
      ∀ fuel, Parser.run g stop (n + fuel) c =
        (events ++ (Parser.run g stop fuel c').1, (Parser.run g stop fuel c').2) := by
  induction h with
  | refl b =>
    intro c hc
    exact ⟨c, [], hc, rfl, fun fuel => by simp⟩
  | @step n b d e hs _ ih =>
    intro c hc
    obtain ⟨event, c', hstep, hfault, hc'⟩ := step_of_next stop (hc ▸ hs)
    obtain ⟨c'', events, hc'', hfaults, hrun⟩ := ih hc'
    refine ⟨c'', event :: events, hc'', by simp [hfault, hfaults], fun fuel => ?_⟩
    rw [Nat.add_right_comm]
    simp only [Parser.run, hstep, hrun fuel]
    rfl

end Bare

end PixQuery
