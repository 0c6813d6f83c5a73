import PixQuery.Span
import PixQuery.Json.Basic

/-!
# Diagnostics

A diagnostic is a fault as it is shown to the author of a query: a numeric code, a message, the
stretch of text it speaks of, and further details for programs. Each stage has a type of its own
for what can go wrong, and a function from it to `Diagnostic`.

In the program the errors of a stage answer `code`, `range` and `info` (`Diagnose`), and a
`Diagnostic` is made from these.
-/

namespace PixQuery

/-- A span as a document; a single position has no `end`. -/
def Span.json (s : Span) : Json :=
  .object (("begin", .ofNat s.start) ::
    match s.stop with
    | some stop => [("end", .ofNat stop)]
    | none => [])

/-- Read a span; a missing or null `end` gives a single position. -/
def Span.ofJson? (j : Json) : Option Span := do
  let ms ← j.members?
  let start ← Json.required Json.nat? ms "begin"
  let stop ← Json.optional Json.nat? ms "end"
  return ⟨start, stop⟩

/-- A fault as it is shown to the author of a query. -/
structure Diagnostic where
  code : Nat
  message : String
  range : Option Span
  info : Option Json
  deriving Repr, Inhabited, BEq

namespace Diagnostic

/-- The diagnostic on one line: code, message and place. -/
def text (d : Diagnostic) : String :=
  "[" ++ toString d.code ++ "] " ++ d.message ++
    match d.range with
    | some r => " (at " ++ r.text ++ ")"
    | none => ""

/-- The diagnostic as a document; what it does not have is left out. -/
def json (d : Diagnostic) : Json :=
  .object
    ([("code", .ofNat d.code), ("message", .text d.message)] ++
      (d.range.map fun r => ("range", r.json)).toList ++
      (d.info.map fun i => ("info", i)).toList)

end Diagnostic

end PixQuery
