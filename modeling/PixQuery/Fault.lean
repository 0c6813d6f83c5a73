import PixQuery.Fault.Lexical
import PixQuery.Fault.Syntactic
import PixQuery.Fault.Semantic
import PixQuery.Fault.Planning

/-!
# Faults of a whole compilation

Compiling a query passes through four stages, and `Fault` joins what can go wrong in each. The
thousands of a code name the stage.
-/

namespace PixQuery

/-- A fault of any stage (`CompileError`). -/
inductive Fault where
  | lexical (fault : LexicalFault)
  | grammar (fault : SyntaxFault)
  | semantic (fault : SemanticFault)
  | planning (fault : PlanningFault)
  deriving Repr, DecidableEq

/-- The fault as it is shown. -/
def Fault.diagnostic : Fault → Diagnostic
  | lexical f => f.diagnostic
  | grammar f => f.diagnostic
  | semantic f => f.diagnostic
  | planning f => f.diagnostic

end PixQuery
