import PixQuery.Options.Change
import PixQuery.Token.Alphabet

/-!
# Options of a compilation

The options say how a text is cut into tokens, which ends of `a..b` belong to it, how many
suggestions a forecast gives, from which size on a query draws a warning, and which year a date
without a year is in. An `OptionsPatch` changes some of them; `CompilerOptions.apply` applies it.
-/

namespace PixQuery

/-- Which ends of a span `a..b` belong to it. -/
structure RangeBounds where
  includeBegin : Bool
  includeEnd : Bool
  deriving Repr, DecidableEq

/-- The options of a compilation. -/
structure CompilerOptions where
  lexical : LexicalOptions
  rangeBounds : RangeBounds
  /-- The greatest number of suggestions; unlimited when there is none. -/
  forecastLimit : Option Nat
  /-- More members of one clause than this draw a warning. -/
  unionWarningLimit : Option Nat
  /-- More clauses than this draw a warning. -/
  intersectionWarningLimit : Option Nat
  /-- The year of a date that is written without one. -/
  currentYear : Option Int
  deriving Repr, DecidableEq

/-- Both ends of a span belong to it. -/
def RangeBounds.default : RangeBounds := ⟨true, true⟩

/-- The options where nothing else is said. -/
def CompilerOptions.default : CompilerOptions where
  lexical := ⟨false, false⟩
  rangeBounds := .default
  forecastLimit := some 10
  unionWarningLimit := some 32
  intersectionWarningLimit := some 16
  currentYear := none

instance : Inhabited CompilerOptions := ⟨.default⟩

/-- A change of some options. -/
structure OptionsPatch where
  reflectFullWidth : Change Bool
  underscoreAsSpace : Change Bool
  rangeBounds : Change RangeBounds
  forecastLimit : Change Nat
  unionWarningLimit : Change Nat
  intersectionWarningLimit : Change Nat
  currentYear : Change Int
  deriving Repr, DecidableEq

/-- Apply a change of options. Limits and the year can be cleared; the others keep their value. -/
def CompilerOptions.apply (o : CompilerOptions) (p : OptionsPatch) : CompilerOptions where
  lexical :=
    ⟨p.reflectFullWidth.assignTo o.lexical.reflectFullWidth,
      p.underscoreAsSpace.assignTo o.lexical.underscoreAsSpace⟩
  rangeBounds := p.rangeBounds.assignTo o.rangeBounds
  forecastLimit := p.forecastLimit.mergeInto o.forecastLimit
  unionWarningLimit := p.unionWarningLimit.mergeInto o.unionWarningLimit
  intersectionWarningLimit := p.intersectionWarningLimit.mergeInto o.intersectionWarningLimit
  currentYear := p.currentYear.mergeInto o.currentYear

end PixQuery
