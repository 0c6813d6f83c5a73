/-!
# Reports and findings

A stage answers with a report: a result, if it has one, and the warnings and errors it met. While a
stage runs it gathers `Findings`, in the order in which they are met. Gathering never stops a
stage; only at the end an error takes the result away (`Findings.finish`).

In the program a report is an `AnalysisResult`, and what is gathered an `ErrorCollector`.
-/

namespace PixQuery

/-- What a stage gives: a result if there is one, and what was found on the way
(`AnalysisResult`). -/
structure Report (α ε : Type) where
  result : Option α
  warnings : List ε
  errors : List ε
  deriving Repr, DecidableEq

namespace Report

variable {α β ε φ : Type}

/-- There is a result and no error (`is_success`). -/
def succeeded (r : Report α ε) : Bool := r.result.isSome && r.errors.isEmpty

/-- Change the result, and keep what was found. -/
def map (f : α → β) (r : Report α ε) : Report β ε := ⟨r.result.map f, r.warnings, r.errors⟩

/-- Change what was found, and keep the result (`map_err`). -/
def mapFaults (f : ε → φ) (r : Report α ε) : Report α φ :=
  ⟨r.result, r.warnings.map f, r.errors.map f⟩

end Report

/-- Warnings and errors, in the order in which they were met (`ErrorCollector`). -/
structure Findings (ε : Type) where
  warnings : List ε
  errors : List ε
  deriving Repr, DecidableEq

namespace Findings

variable {α ε φ : Type}

/-- Nothing found. -/
def empty : Findings ε := ⟨[], []⟩

/-- Add a warning (`warning`). -/
def warn (f : Findings ε) (e : ε) : Findings ε := { f with warnings := f.warnings ++ [e] }

/-- Add an error (`error`). -/
def fail (f : Findings ε) (e : ε) : Findings ε := { f with errors := f.errors ++ [e] }

/-- Add all that another stage found, as findings of this one. -/
def merge (f : Findings ε) (view : φ → ε) (g : Findings φ) : Findings ε :=
  ⟨f.warnings ++ g.warnings.map view, f.errors ++ g.errors.map view⟩

/-- The findings of a report. -/
def ofReport (r : Report α ε) : Findings ε := ⟨r.warnings, r.errors⟩

/-- Add the findings of a report. -/
def absorb (f : Findings ε) (view : φ → ε) (r : Report α φ) : Findings ε :=
  f.merge view (ofReport r)

/-- The report of a stage that ends with `result`: with an error there is none. -/
def finish (f : Findings ε) (result : Option α) : Report α ε :=
  ⟨if f.errors.isEmpty then result else none, f.warnings, f.errors⟩

theorem finish_result_isSome_iff (f : Findings ε) (result : Option α) :
    (f.finish result).result.isSome ↔ f.errors = [] ∧ result.isSome := by
  cases h : f.errors <;> simp [finish, h]

theorem finish_result_eq_some_iff (f : Findings ε) (result : Option α) {a : α} :
    (f.finish result).result = some a ↔ f.errors = [] ∧ result = some a := by
  cases h : f.errors <;> simp [finish, h]

end Findings

end PixQuery
