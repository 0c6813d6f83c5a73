import PixQuery.Fault.Planning
import PixQuery.Meaning.Basic
import PixQuery.Options.Basic
import PixQuery.Report

/-!
# Query plans

A plan is what a store of images carries out: the sort keys, the items about names in one group for
each kind, and the filters. The items of all groups have to hold together; the members of one item
are alternatives. Planning never fails (`Meaning.plan`); it warns of items with many members and
of many items.

In the program a plan is a `QueryPlan`, made by `to_query_plan`.
-/

namespace PixQuery

/-- An item about names: an image has one of the members, or none of them when it is excluded. -/
structure ElementItem where
  exclude : Bool
  union : List ElementValue
  deriving Repr, DecidableEq, Inhabited

/-- The items of one kind, in the order in which they are written. -/
structure ElementGroup where
  kind : ElementKind
  items : List ElementItem
  deriving Repr, DecidableEq, Inhabited

/-- Filters of which one holds, or none when the group is excluded. -/
structure FilterGroup where
  exclude : Bool
  union : List Filter
  deriving Repr, DecidableEq, Inhabited

/-- What a store of images carries out (`QueryPlan`). -/
structure Plan where
  sorts : List SortItem
  elements : List ElementGroup
  filters : List FilterGroup
  deriving Repr, DecidableEq, Inhabited

namespace Plan

/-- Whether nothing is asked for. -/
def isEmpty (p : Plan) : Bool := p.sorts.isEmpty && p.elements.isEmpty && p.filters.isEmpty

/-- The number of items about names in all groups (`element_item_count`). -/
def itemCount (p : Plan) : Nat := (p.elements.flatMap ElementGroup.items).length

/-- The groups with one more item. It joins the group of its kind, or opens one behind the
others. -/
def addItem (kind : ElementKind) (item : ElementItem) : List ElementGroup → List ElementGroup
  | [] => [⟨kind, [item]⟩]
  | g :: gs =>
    if g.kind = kind then { g with items := g.items ++ [item] } :: gs else g :: addItem kind item gs

/-- The item that a clause about names becomes. -/
def item (c : ElementClause) : ElementItem := ⟨c.exclude, c.union⟩

/-- The groups of some clauses. A group stands where its kind appears first. -/
def groups (clauses : List ElementClause) : List ElementGroup :=
  clauses.foldl (fun gs c => addItem c.kind (item c) gs) []

/-- The plan of a meaning. -/
def ofMeaning (m : Meaning) : Plan :=
  ⟨m.sorts, groups m.elements, m.filters.map fun c => ⟨c.exclude, c.union⟩⟩

/-- The warning about a clause with more members than the limit; it is called by its first one. -/
def unionWarning? (limit : Option Nat) (c : ElementClause) : Option PlanningFault :=
  match limit with
  | none => none
  | some n =>
    if n < c.union.length then
      some (.largeUnion ((c.union.head?.map ElementValue.label).getD "") c.union.length n c.range)
    else none

/-- The warning about more items than the limit. -/
def intersectionWarning? (limit : Option Nat) (p : Plan) : Option PlanningFault :=
  match limit with
  | none => none
  | some n => if n < p.itemCount then some (.largeIntersection p.itemCount n) else none

end Plan

/-- The plan of a meaning, with warnings about its size (`to_query_plan`). -/
def Meaning.plan (options : CompilerOptions) (m : Meaning) : Report Plan PlanningFault :=
  let plan := Plan.ofMeaning m
  let warnings :=
    m.elements.filterMap (Plan.unionWarning? options.unionWarningLimit) ++
      (Plan.intersectionWarning? options.intersectionWarningLimit plan).toList
  ⟨some plan, warnings, []⟩

end PixQuery
