import PixQuery.Alias
import PixQuery.Field.Basic
import PixQuery.Metadata.Entity

/-!
# The names of fields and sort keys

Each table lists its keys with the names that may be typed for them, the preferred name first.
-/

namespace PixQuery

/-- An entry of a table (`field` and `order`). -/
def named {κ : Type} (key : κ) (preferred : Alias) (others : List Alias) : AliasEntry κ :=
  ⟨key, preferred, others⟩

/-- The names of the fields (`FIELD_ALIASES`). -/
def Field.names : List (AliasEntry Field) :=
  [named .favorite (.plain "favorite") [.plain "f"],
    named .bookMember (.plain "book-member") [.plain "bm"],
    named .id (.plain "id") [],
    named .score (.plain "score") [],
    named .partition (.plain "partition") [.plain "pt"],
    named .ordinal (.plain "ordinal") [.plain "ord"],
    named .createTime (.plain "create") [.plain "create-time", .plain "ct"],
    named .updateTime (.plain "update") [.plain "update-time", .plain "ut"],
    named .description (.plain "description") [.plain "desc"],
    named .extension (.plain "extension") [.plain "ext"],
    named .filesize (.plain "filesize") [.plain "size"],
    named .sourceId (.sourced "id") [.plain "source-id"],
    named .sourcePage (.sourced "page") [.plain "source-page"],
    named .sourcePageName (.sourced "page-name") [.sourced "pn", .plain "source-page-name"],
    named .sourceSite (.sourced "site") [.plain "source-site"],
    named .sourceDescription (.sourced "description")
      [.sourced "desc", .plain "source-description", .plain "source-desc"],
    named .tagme (.plain "tagme") []]

/-- The names of the sort keys (`ORDER_ALIASES`). -/
def OrderKey.names : List (AliasEntry OrderKey) :=
  [named .id (.plain "id") [],
    named .score (.plain "score") [.plain "s"],
    named .ordinal (.plain "ordinal") [.plain "ord"],
    named .partition (.plain "partition") [.plain "pt"],
    named .createTime (.plain "create-time") [.plain "create", .plain "ct"],
    named .updateTime (.plain "update-time") [.plain "update", .plain "ut"],
    named .sourceId (.sourced "id") [.plain "source-id"],
    named .sourceSite (.sourced "site") [.plain "source-site"]]

/-- The names of the fields whose values are names of metadata (`ELEMENT_FIELDS`). -/
def Kind.names : List (AliasEntry Kind) :=
  [named .tag (.plain "tag") [.plain "tags"],
    named .topic (.plain "topic") [.plain "topics"],
    named .author (.plain "author") [.plain "authors"],
    named .sourceTag (.sourced "tag") [.plain "source-tag"]]

/-- The name of the field whose value is a list of sort keys (`SORT_FIELD`). -/
def sortFieldName : Alias := .plain "order"

/-- The preferred name of a field, with the source mark where it needs one. -/
def Field.displayName (f : Field) : String :=
  ((AliasEntry.preferred? Field.names f).map Alias.text).getD ""

/-- The preferred name of a sort key, with the source mark where it needs one. -/
def OrderKey.displayName (k : OrderKey) : String :=
  ((AliasEntry.preferred? OrderKey.names k).map Alias.text).getD ""

end PixQuery
