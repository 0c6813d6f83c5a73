import PixQuery.Options.Basic

/-!
# Options as documents

A document of options may leave any of them out; those stay at their defaults. In a patch what is
left out is kept, and null clears.
-/

namespace PixQuery

open Json

/-- A year: a whole number of 32 bits. -/
def readYear? : Json → Option Int := signed? 32

/-- The bounds as a document. -/
def RangeBounds.json (b : RangeBounds) : Json :=
  .object [("include_begin", .bool b.includeBegin), ("include_end", .bool b.includeEnd)]

/-- Read bounds; both have to be given. -/
def RangeBounds.ofJson? (j : Json) : Option RangeBounds := do
  let ms ← j.members?
  return ⟨← required bool? ms "include_begin", ← required bool? ms "include_end"⟩

/-- The lexical options as a document. -/
def LexicalOptions.json (o : LexicalOptions) : Json :=
  .object
    [("chinese_symbol_reflect", .bool o.reflectFullWidth),
      ("translate_underscore_to_space", .bool o.underscoreAsSpace)]

/-- Read lexical options. -/
def LexicalOptions.ofJson? (j : Json) : Option LexicalOptions := do
  let ms ← j.members?
  return ⟨← defaulted bool? false ms "chinese_symbol_reflect",
    ← defaulted bool? false ms "translate_underscore_to_space"⟩

/-- The options as a document. -/
def CompilerOptions.json (o : CompilerOptions) : Json :=
  .object
    [("lexical", o.lexical.json),
      ("range_bounds", o.rangeBounds.json),
      ("forecast_limit", .ofOption .ofNat o.forecastLimit),
      ("warning_limit_of_union_items", .ofOption .ofNat o.unionWarningLimit),
      ("warning_limit_of_intersect_items", .ofOption .ofNat o.intersectionWarningLimit),
      ("current_year", .ofOption .whole o.currentYear)]

/-- Read a limit or a year that may be null; `initial` where it is left out. -/
def readSetting? {α : Type} (read : Json → Option α) (initial : Option α)
    (ms : List (String × Json)) (key : String) : Option (Option α) :=
  defaulted (option? read) initial ms key

/-- Read options. -/
def CompilerOptions.ofJson? (j : Json) : Option CompilerOptions := do
  let ms ← j.members?
  let d := CompilerOptions.default
  let lexical ← defaulted LexicalOptions.ofJson? d.lexical ms "lexical"
  let rangeBounds ← defaulted RangeBounds.ofJson? d.rangeBounds ms "range_bounds"
  let forecastLimit ← readSetting? nat? d.forecastLimit ms "forecast_limit"
  let union ← readSetting? nat? d.unionWarningLimit ms "warning_limit_of_union_items"
  let intersection ←
    readSetting? nat? d.intersectionWarningLimit ms "warning_limit_of_intersect_items"
  let year ← readSetting? readYear? d.currentYear ms "current_year"
  return ⟨lexical, rangeBounds, forecastLimit, union, intersection, year⟩

/-- Read a patch. -/
def OptionsPatch.ofJson? (j : Json) : Option OptionsPatch := do
  let ms ← j.members?
  let change {α : Type} (read : Json → Option α) (key : String) :=
    defaulted (Change.ofJson? read) .keep ms key
  let reflect ← change bool? "chinese_symbol_reflect"
  let underscore ← change bool? "translate_underscore_to_space"
  let rangeBounds ← change RangeBounds.ofJson? "range_bounds"
  let forecastLimit ← change nat? "forecast_limit"
  let union ← change nat? "warning_limit_of_union_items"
  let intersection ← change nat? "warning_limit_of_intersect_items"
  let year ← change readYear? "current_year"
  return ⟨reflect, underscore, rangeBounds, forecastLimit, union, intersection, year⟩

/-- A member that is left out when nothing is changed. -/
def changeMember {α : Type} (key : String) (write : α → Json) (c : Change α) :
    List (String × Json) :=
  if c.isKeep then [] else [(key, c.json write)]

/-- A patch as a document. -/
def OptionsPatch.json (p : OptionsPatch) : Json :=
  .object
    (changeMember "chinese_symbol_reflect" .bool p.reflectFullWidth ++
      changeMember "translate_underscore_to_space" .bool p.underscoreAsSpace ++
      changeMember "range_bounds" RangeBounds.json p.rangeBounds ++
      changeMember "forecast_limit" .ofNat p.forecastLimit ++
      changeMember "warning_limit_of_union_items" .ofNat p.unionWarningLimit ++
      changeMember "warning_limit_of_intersect_items" .ofNat p.intersectionWarningLimit ++
      changeMember "current_year" .whole p.currentYear)

end PixQuery
