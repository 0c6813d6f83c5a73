/-!
# Adding conclusions until there are no new ones

`saturate step n facts` adds to `facts` what `step` concludes from them, round after round, and
stops when a round gives nothing new. When all facts come from a finite stock, as many rounds as
there are facts in stock are enough.
-/

namespace PixQuery

variable {α : Type} [BEq α]

/-- What `step` concludes from the facts and is not among them, each once. -/
def newFacts (step : List α → List α) (facts : List α) : List α :=
  ((step facts).filter fun a => !facts.contains a).eraseDups

/-- Add conclusions for at most `rounds` rounds, or until there are no new ones. -/
def saturate (step : List α → List α) : (rounds : Nat) → List α → List α
  | 0, facts => facts
  | n + 1, facts =>
    match newFacts step facts with
    | [] => facts
    | new => saturate step n (facts ++ new)

theorem mem_saturate_of_mem [LawfulBEq α] {step : List α → List α} {a : α} :
    ∀ (n : Nat) {facts : List α}, a ∈ facts → a ∈ saturate step n facts
  | 0, _, h => h
  | n + 1, facts, h => by
    unfold saturate
    split
    · exact h
    · exact mem_saturate_of_mem n (List.mem_append_left _ h)

end PixQuery
