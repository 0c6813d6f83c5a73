import PixQuery.Compile
import PixQuery.Proofs.Grammar.Halting

/-!
# What the stages of a compilation find

The stages run one behind the other and share one list of errors and one of warnings. A stage whose
forerunner gave nothing is left out, and an error takes the result away at the end.

Results:
* `errors_compile`: the errors are those of the stages, in the order of the stages.
* `compile_isSome_iff`: there is a plan exactly when there is no error.
* `compile_stages`: all that is said of errors and stages, for every grammar text, and that the
  parser passes over no tokens.
* `compile_eq_of_currentYear`: where the options set the year, the clock makes no difference.
-/

namespace PixQuery

/-! ## Stages -/

/-- The number of the stage that found a fault: the thousands of its code. -/
def Fault.stage (f : Fault) : Nat := f.diagnostic.code / 1000

@[simp] theorem Fault.stage_lexical (f : LexicalFault) : (Fault.lexical f).stage = 1 := by
  cases f <;> simp [Fault.stage, Fault.diagnostic, LexicalFault.diagnostic, LexicalFault.code]

@[simp] theorem Fault.stage_grammar (f : SyntaxFault) : (Fault.grammar f).stage = 2 := by
  cases f <;> simp [Fault.stage, Fault.diagnostic, SyntaxFault.diagnostic, SyntaxFault.code]

@[simp] theorem Fault.stage_semantic (f : SemanticFault) : (Fault.semantic f).stage = 3 := by
  obtain ⟨cause, range⟩ := f
  cases cause <;> simp [Fault.stage, Fault.diagnostic, SemanticFault.diagnostic, SemanticCause.code]

@[simp] theorem Fault.stage_planning (f : PlanningFault) : (Fault.planning f).stage = 4 := by
  cases f <;> simp [Fault.stage, Fault.diagnostic, PlanningFault.diagnostic, PlanningFault.code]

/-- The faults of three stages in their order. -/
def inOrder (lexical : List LexicalFault) (grammar : List SyntaxFault)
    (semantic : List SemanticFault) : List Fault :=
  lexical.map .lexical ++ grammar.map .grammar ++ semantic.map .semantic

theorem pairwise_stage_inOrder (lexical : List LexicalFault) (grammar : List SyntaxFault)
    (semantic : List SemanticFault) :
    (inOrder lexical grammar semantic).Pairwise fun e f => e.stage ≤ f.stage := by
  simp only [inOrder, List.pairwise_append, List.pairwise_map, List.mem_append, List.mem_map]
  refine ⟨⟨?_, ?_, ?_⟩, ?_, ?_⟩
  · exact List.pairwise_of_forall fun e f => by simp
  · exact List.pairwise_of_forall fun e f => by simp
  · rintro _ ⟨e, _, rfl⟩ _ ⟨f, _, rfl⟩
    simp
  · exact List.pairwise_of_forall fun e f => by simp
  · rintro _ (⟨e, _, rfl⟩ | ⟨e, _, rfl⟩) _ ⟨f, _, rfl⟩ <;> simp

theorem stage_of_mem_inOrder {lexical : List LexicalFault} {grammar : List SyntaxFault}
    {semantic : List SemanticFault} {e : Fault} (h : e ∈ inOrder lexical grammar semantic) :
    1 ≤ e.stage ∧ e.stage ≤ 3 := by
  simp only [inOrder, List.mem_append, List.mem_map] at h
  rcases h with (⟨e, _, rfl⟩ | ⟨e, _, rfl⟩) | ⟨e, _, rfl⟩ <;> simp

theorem isSome_of_analyze {lookup : Lookup} {options : CompilerOptions} {clock : Int} {root : Tree}
    (h : (PixQuery.analyze lookup options clock root).errors = []) :
    (PixQuery.analyze lookup options clock root).result.isSome := by
  unfold PixQuery.analyze at h ⊢
  split at h
  · cases h
  · exact (Findings.finish_result_isSome_iff _ _).mpr ⟨h, rfl⟩

/-! ## The clock -/

open Analysis in
/-- **Analysis takes from the clock only the year** that dates without a year are in. -/
theorem analyze_congr {options : CompilerOptions} {clock clock' : Int}
    (h : options.year clock = options.year clock') (lookup : Lookup) (root : Tree) :
    PixQuery.analyze lookup options clock root = PixQuery.analyze lookup options clock' root := by
  have hfilter : filterItem options clock = filterItem options clock' := by
    funext item fields
    rw [filterItem, filterItem, h]
  have hfield : fieldItem lookup options clock = fieldItem lookup options clock' := by
    funext item subjects
    rw [fieldItem, fieldItem, hfilter]
  have hplain : plainItem lookup options clock = plainItem lookup options clock' := by
    funext item subjects
    rw [plainItem, plainItem, hfield]
  have hitem : analyzeItem lookup options clock = analyzeItem lookup options clock' := by
    funext present item
    rw [analyzeItem, analyzeItem, hplain]
  have hadd : addItem lookup options clock = addItem lookup options clock' := by
    funext p node
    rw [addItem, addItem, hitem]
  rw [PixQuery.analyze, PixQuery.analyze, hadd]

namespace Compiler

variable {c : Compiler} {lookup : Lookup} {text : String} {clock : Int}

/-- **Where the options set the year, the clock makes no difference.** -/
theorem compile_eq_of_currentYear {year : Int} (h : c.options.currentYear = some year)
    (lookup : Lookup) (text : String) (clock clock' : Int) :
    c.compile lookup text clock = c.compile lookup text clock' := by
  have hyear : c.options.year clock = c.options.year clock' := by
    rw [CompilerOptions.year, CompilerOptions.year, h]
    rfl
  have hunderstand : c.understand lookup text clock = c.understand lookup text clock' := by
    simp only [understand, analyze_congr hyear]
  rw [compile, compile, hunderstand]

/-! ## Errors and warnings of a compilation -/

/-- What the parser reports about the tokens of a text. -/
def parsed (c : Compiler) (text : String) : Report Tree SyntaxFault :=
  c.grammar.parse (c.tokens text)

/-- What analysis reports; without a tree it is left out. -/
def analyzed (c : Compiler) (lookup : Lookup) (text : String) (clock : Int) :
    Report Meaning SemanticFault :=
  match (c.parsed text).result with
  | some tree => PixQuery.analyze lookup c.options clock tree
  | none => ⟨none, [], []⟩

/-- The items that are read from a text. -/
def items (c : Compiler) (text : String) : List Query.Item :=
  match (c.parsed text).result with
  | some root =>
    ((Query.itemNodes root).toOption.getD []).filterMap fun node => (Query.readItem node).toOption
  | none => []

/-- The findings of the lexer and the parser, and the tree. -/
theorem front_eq (c : Compiler) (text : String) : c.front text =
    (⟨(c.lex text).warnings.map .lexical,
      (c.lex text).errors.map .lexical ++ (c.parsed text).errors.map .grammar⟩,
      (c.parsed text).result) := by
  have hwarnings : (c.grammar.parse ((c.lex text).result.getD [])).warnings = [] := rfl
  simp only [front, Findings.absorb, Findings.merge, Findings.ofReport, Findings.empty, hwarnings,
    List.map_nil, List.append_nil, List.nil_append]
  rfl

/-- The findings up to analysis. -/
theorem findings_understand (c : Compiler) (lookup : Lookup) (text : String) (clock : Int) :
    (c.understand lookup text clock).1 =
      ⟨(c.lex text).warnings.map .lexical ++ (c.analyzed lookup text clock).warnings.map .semantic,
        inOrder (c.lex text).errors (c.parsed text).errors
          (c.analyzed lookup text clock).errors⟩ := by
  rw [understand, front_eq, analyzed]
  cases (c.parsed text).result with
  | some tree => rfl
  | none => simp only [List.map_nil, List.append_nil, inOrder]

/-- **The errors are those of the stages**, in the order of the stages: planning has none. -/
theorem errors_compile (c : Compiler) (lookup : Lookup) (text : String) (clock : Int) :
    (c.compile lookup text clock).errors =
      inOrder (c.lex text).errors (c.parsed text).errors (c.analyzed lookup text clock).errors := by
  have hfindings := congrArg Findings.errors (findings_understand c lookup text clock)
  refine Eq.trans ?_ hfindings
  unfold compile
  cases hunderstood : c.understand lookup text clock with
  | mk findings meaning =>
    cases meaning with
    | none => rfl
    | some meaning => exact List.append_nil _

/-- An error of the parser leaves nothing for analysis and planning: no errors and no warnings. -/
theorem compile_of_parsed_errors (h : (c.parsed text).errors ≠ []) :
    (c.analyzed lookup text clock).errors = [] ∧
      (c.compile lookup text clock).warnings = (c.lex text).warnings.map .lexical := by
  have hnone : (c.parsed text).result = none := by
    by_contra hsome
    exact h ((Findings.finish_result_isSome_iff _ _).mp (Option.isSome_iff_ne_none.mpr hsome)).1
  have hempty : ((c.lex text).errors.map Fault.lexical ++
      (c.parsed text).errors.map Fault.grammar).isEmpty = false := by
    simp [h]
  refine ⟨by rw [analyzed, hnone], ?_⟩
  rw [compile, understand, front_eq, hnone]
  simp only [hempty]
  rfl

/-- **There is a plan exactly when there is no error.** -/
theorem compile_isSome_iff (c : Compiler) (lookup : Lookup) (text : String) (clock : Int) :
    (c.compile lookup text clock).result.isSome ↔ (c.compile lookup text clock).errors = [] := by
  constructor
  · intro h
    unfold compile at h ⊢
    split at h
    all_goals exact ((Findings.finish_result_isSome_iff _ _).mp h).1
  · intro h
    have hstages := h
    rw [errors_compile, inOrder, List.append_eq_nil_iff, List.append_eq_nil_iff,
      List.map_eq_nil_iff, List.map_eq_nil_iff, List.map_eq_nil_iff] at hstages
    obtain ⟨⟨hlexed, hparsed⟩, hanalyzed⟩ := hstages
    have hmeaning : (c.understand lookup text clock).2.isSome := by
      rw [understand, front_eq]
      rw [analyzed] at hanalyzed
      cases htree : (c.parsed text).result with
      | some tree =>
        rw [htree] at hanalyzed
        exact isSome_of_analyze hanalyzed
      | none => simp [hlexed, hparsed]
    unfold compile at h ⊢
    cases hunderstood : c.understand lookup text clock with
    | mk findings meaning =>
      rw [hunderstood] at hmeaning h
      obtain ⟨m, rfl⟩ := Option.isSome_iff_exists.mp hmeaning
      exact (Findings.finish_result_isSome_iff _ _).mpr ⟨h, rfl⟩

/-- A plan is given only without errors. -/
theorem errors_of_compile {p : Plan} (h : (c.compile lookup text clock).result = some p) :
    (c.compile lookup text clock).errors = [] :=
  (compile_isSome_iff c lookup text clock).mp (h ▸ rfl)

/-- A text with tokens is not compiled as the empty query: a plan is that of a tree. -/
theorem exists_tree_of_compile (hg : c.grammar.IsBuilt)
    (hhalts : Parser.Halts c.grammar (c.tokens text)) (hne : c.tokens text ≠ [])
    (h : (c.compile lookup text clock).result.isSome) :
      ∃ tree, (c.parsed text).result = some tree := by
  have herrors := (compile_isSome_iff c lookup text clock).mp h
  rw [errors_compile, inOrder, List.append_eq_nil_iff, List.append_eq_nil_iff,
    List.map_eq_nil_iff, List.map_eq_nil_iff] at herrors
  exact Option.isSome_iff_exists.mp
    ((Grammar.tree_or_error hg hhalts hne).resolve_right fun h => h herrors.1.2)

/-! ## The contract of the stages -/

/-- **A compilation yields a plan exactly when nothing went wrong.** In a grammar that was read from
a text, for a text on whose tokens the parser comes to an end: there is a plan if and only if there
is no error; the errors stand in the order of the stages, and planning has none; an error of the
parser excludes all that later stages could find; tokens give a tree or an error of the parser, so
that none are compiled as the empty query; and wherever the parser comes to, it can carry out what
the table says. -/
theorem compile_stages {definition : String} (hg : Grammar.ofText definition = .ok c.grammar)
    (hhalts : Parser.Halts c.grammar (c.tokens text)) (lookup : Lookup) (clock : Int) :
    ((c.compile lookup text clock).result.isSome ↔ (c.compile lookup text clock).errors = []) ∧
    (c.compile lookup text clock).errors.Pairwise (fun e f => e.stage ≤ f.stage) ∧
    (∀ e ∈ (c.compile lookup text clock).errors, 1 ≤ e.stage ∧ e.stage ≤ 3) ∧
    ((∃ e ∈ (c.compile lookup text clock).errors, e.stage = 2) →
      ∀ e ∈ (c.compile lookup text clock).errors ++ (c.compile lookup text clock).warnings,
        e.stage ≤ 2) ∧
    (c.tokens text ≠ [] →
      ((c.parsed text).result.isSome ∨ (c.parsed text).errors ≠ []) ∧
      ((c.compile lookup text clock).result.isSome → ∃ tree, (c.parsed text).result = some tree)) ∧
    (∀ d, Parser.Reached c.grammar (Parser.stopOf (c.tokens text)) (c.tokens text) d →
      Parser.CarriesOut c.grammar d) := by
  have hbuilt := Grammar.isBuilt_of_ofText hg
  have herrors := errors_compile c lookup text clock
  refine ⟨compile_isSome_iff c lookup text clock, herrors ▸ pairwise_stage_inOrder _ _ _,
    fun e he => stage_of_mem_inOrder (herrors ▸ he), ?_, fun hne =>
    ⟨Grammar.tree_or_error hbuilt hhalts hne, exists_tree_of_compile hbuilt hhalts hne⟩,
    fun d hd => Parser.carriesOut_of_spells hbuilt (hd.spells hbuilt)⟩
  rintro ⟨e, he, hstage⟩ f hf
  have hparsed : (c.parsed text).errors ≠ [] := by
    intro hnil
    simp only [herrors, inOrder, hnil, List.mem_append, List.mem_map] at he
    rcases he with (⟨e, _, rfl⟩ | ⟨e, h, rfl⟩) | ⟨e, _, rfl⟩
    · simp at hstage
    · cases h
    · simp at hstage
  obtain ⟨hanalyzed, hwarnings⟩ := @compile_of_parsed_errors c lookup text clock hparsed
  simp only [herrors, inOrder, hanalyzed, hwarnings, List.mem_append, List.mem_map] at hf
  rcases hf with ((⟨f, _, rfl⟩ | ⟨f, _, rfl⟩) | ⟨f, h, rfl⟩) | ⟨f, _, rfl⟩
  · simp
  · simp
  · cases h
  · simp

/-- A compiler of sums. -/
def ofSums : Compiler := ⟨Grammar.sums, .default⟩

theorem halts_ofSums (text : String) :
    Parser.Halts ofSums.grammar (ofSums.tokens text) := fun _ => by
  have hbuilt := Grammar.isBuilt_of_ofText Grammar.ofText_sumText
  obtain ⟨n, _, hn⟩ := Parser.halts hbuilt Grammar.productive_sums (ofSums.tokens text)
  exact ⟨n, hn⟩

/-- `a +` is no sum: it has an error of the parser, and no plan. -/
theorem compile_stages_openSum :
    (ofSums.compile .empty "a +" 2021).errors.map Fault.stage = [2] ∧
      ¬ (ofSums.compile .empty "a +" 2021).result.isSome := by
  have hstages : (ofSums.compile .empty "a +" 2021).errors.map Fault.stage = [2] := by
    decide +kernel
  refine ⟨hstages, fun hsome => ?_⟩
  have hnone := (compile_stages Grammar.ofText_sumText (halts_ofSums "a +") .empty 2021).1.mp hsome
  rw [hnone] at hstages
  cases hstages

end Compiler

end PixQuery
