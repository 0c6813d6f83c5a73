import PixQuery.Diagnostic

/-!
# What can be wrong with a plan

The codes of these faults are 4001 and 4002. Both are warnings about the size of a query.
-/

namespace PixQuery

/-- A plan that is larger than its author may have meant (`TranslationError`). -/
inductive PlanningFault where
  /-- One clause joins more members than the limit allows. -/
  | largeUnion (item : String) (count limit : Nat) (range : Span)
  /-- All clauses together are more than the limit allows. -/
  | largeIntersection (count limit : Nat)
  deriving Repr, DecidableEq

namespace PlanningFault

/-- The code of the fault. -/
def code : PlanningFault → Nat
  | largeUnion .. => 4001
  | largeIntersection .. => 4002

/-- The fault in words. -/
def message : PlanningFault → String
  | largeUnion item count limit _ =>
    "element '" ++ item ++ "' unions " ++ toString count ++ " items, more than the limit of " ++
      toString limit
  | largeIntersection count limit =>
    "query intersects " ++ toString count ++ " element items, more than the limit of " ++
      toString limit

/-- Where the fault is; the number of clauses has no place of its own. -/
def range : PlanningFault → Option Span
  | largeUnion _ _ _ range => some range
  | largeIntersection .. => none

/-- The count and the limit. -/
def info : PlanningFault → Json
  | largeUnion _ count limit _ | largeIntersection count limit =>
    .object [("count", .ofNat count), ("limit", .ofNat limit)]

/-- The fault as it is shown. -/
def diagnostic (f : PlanningFault) : Diagnostic := ⟨f.code, f.message, f.range, some f.info⟩

end PlanningFault

end PixQuery
