import PixQuery.Grammar.Basic

/-!
# The grammar of the query language

A query is a row of items. An item is an element, perhaps excluded (`-`) or of a source (`^`); an
element joins names, fields and relations with `|`. A relation gives its subject a value, a list, a
collection in braces or a range.

In the program the rules are the text `SYNTAX_DEFINITION` and the table the text `SYNTAX_TABLE`.
-/

namespace PixQuery.Query

open PixQuery.Grammar (Rule Production productionsOf)

/-- The rules of the query language. -/
def rules : List Rule :=
  [⟨"SEQUENCE", "SEQUENCE_ITEM", []⟩,
    ⟨"SEQUENCE", "SEQUENCE", ["SEQUENCE_ITEM"]⟩,
    ⟨"SEQUENCE", "SEQUENCE", ["&", "SEQUENCE_ITEM"]⟩,
    ⟨"SEQUENCE_ITEM", "ELEMENT", []⟩,
    ⟨"SEQUENCE_ITEM", "^", ["ELEMENT"]⟩,
    ⟨"SEQUENCE_ITEM", "-", ["ELEMENT"]⟩,
    ⟨"SEQUENCE_ITEM", "-", ["^", "ELEMENT"]⟩,
    ⟨"ELEMENT", "ELEMENT_ITEM", []⟩,
    ⟨"ELEMENT", "ELEMENT_PREFIX", ["ELEMENT_ITEM"]⟩,
    ⟨"ELEMENT_PREFIX", "@", []⟩,
    ⟨"ELEMENT_PREFIX", "#", []⟩,
    ⟨"ELEMENT_PREFIX", "$", []⟩,
    ⟨"ELEMENT_ITEM", "SFP", []⟩,
    ⟨"ELEMENT_ITEM", "ELEMENT_ITEM", ["|", "SFP"]⟩,
    ⟨"ELEMENT_ITEM", "ELEMENT_ITEM", ["/", "SFP"]⟩,
    ⟨"SFP", "SUBJECT", []⟩,
    ⟨"SFP", "SUBJECT", ["FAMILY", "PREDICATIVE"]⟩,
    ⟨"SUBJECT", "STRING", []⟩,
    ⟨"FAMILY", ":", []⟩,
    ⟨"FAMILY", ">", []⟩,
    ⟨"FAMILY", ">=", []⟩,
    ⟨"FAMILY", "<", []⟩,
    ⟨"FAMILY", "<=", []⟩,
    ⟨"FAMILY", "~", []⟩,
    ⟨"PREDICATIVE", "VALUE_LIST", []⟩,
    ⟨"PREDICATIVE", "COLLECTION", []⟩,
    ⟨"PREDICATIVE", "RANGE", []⟩,
    ⟨"STRING", "str", []⟩,
    ⟨"STRING", "STRING", [".", "str"]⟩,
    ⟨"VALUE_LIST", "VALUE", []⟩,
    ⟨"VALUE_LIST", "VALUE_LIST", [",", "VALUE"]⟩,
    ⟨"VALUE", "STRING", []⟩,
    ⟨"VALUE", "VALUE_PREFIX", ["STRING"]⟩,
    ⟨"VALUE_PREFIX", "+", []⟩,
    ⟨"VALUE_PREFIX", "-", []⟩,
    ⟨"VALUE_PREFIX", "^", []⟩,
    ⟨"VALUE_PREFIX", "+", ["^"]⟩,
    ⟨"VALUE_PREFIX", "-", ["^"]⟩,
    ⟨"COLLECTION", "\x7b", ["\x7d"]⟩,
    ⟨"COLLECTION", "\x7b", ["COLLECTION_ITEM", "\x7d"]⟩,
    ⟨"COLLECTION_ITEM", "STRING", []⟩,
    ⟨"COLLECTION_ITEM", "COLLECTION_ITEM", [",", "STRING"]⟩,
    ⟨"RANGE", "STRING", ["..", "STRING"]⟩,
    ⟨"RANGE", "RANGE_BEGIN", ["STRING", ",", "STRING", "RANGE_END"]⟩,
    ⟨"RANGE_BEGIN", "[", []⟩,
    ⟨"RANGE_BEGIN", "(", []⟩,
    ⟨"RANGE_END", "]", []⟩,
    ⟨"RANGE_END", ")", []⟩,
    ⟨"SFP", "SUBJECT", ["UNARY_FAMILY"]⟩,
    ⟨"UNARY_FAMILY", "~+", []⟩,
    ⟨"UNARY_FAMILY", "~-", []⟩]

/-- The productions of the query language. -/
def productions : List Production := productionsOf rules

/-- The grammar of the query language. It has no conflicts, so the empty table is never used. -/
def grammar : Grammar :=
  (Grammar.ofProductions productions).toOption.getD ⟨productions, ⟨[], [], [], []⟩⟩

end PixQuery.Query
