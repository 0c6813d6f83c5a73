/-!
# Spans of a query text

Positions count the characters of a text from its beginning, so a position is a natural number
between zero and the length of the text. A span is half open: it holds its start and not its stop.
A span without a stop marks a single position, such as the place after the last character.

In the program a span is a `TextRange`, made by `new` and `point`.
-/

namespace PixQuery

/-- A stretch of text from `start` up to, and not including, `stop`; a single position when there
is no `stop`. -/
structure Span where
  start : Nat
  stop : Option Nat
  deriving DecidableEq, Repr, Inhabited

namespace Span

/-- The characters from `start` up to `stop`. -/
def between (start stop : Nat) : Span := ⟨start, some stop⟩

/-- The single position `position`. -/
def point (position : Nat) : Span := ⟨position, none⟩

/-- Where the span ends; a single position ends one character later (`end_or_next`). -/
def stopOrNext (s : Span) : Nat := s.stop.getD (s.start + 1)

/-- Whether a cursor at `offset` is in the span or at one of its edges, so that a cursor right
behind the last character still counts. -/
def touches (s : Span) (offset : Nat) : Bool :=
  s.start ≤ offset && offset ≤ s.stop.getD s.start

/-- The least span that holds both. -/
def cover (s t : Span) : Span :=
  between (min s.start t.start) (max s.stopOrNext t.stopOrNext)

/-- The span as it is shown to a reader: `2..5`, or `2` for a single position. -/
def text (s : Span) : String :=
  match s.stop with
  | some stop => toString s.start ++ ".." ++ toString stop
  | none => toString s.start

/-- The span moved `n` characters to the right. -/
def shift (s : Span) (n : Nat) : Span := ⟨s.start + n, s.stop.map (· + n)⟩

@[simp] theorem start_between (a b : Nat) : (between a b).start = a := rfl

@[simp] theorem stopOrNext_between (a b : Nat) : (between a b).stopOrNext = b := rfl

@[simp] theorem stopOrNext_point (a : Nat) : (point a).stopOrNext = a + 1 := rfl

end Span

end PixQuery
