import PixQuery.Proofs.Meaning.Understood
import PixQuery.Proofs.Query.Grammar
import PixQuery.Query.Lowering

/-!
# The members of a list in a derivation

Lists of the query language are left-recursive: a list is its only member, or a list with one more
member behind it, perhaps with a separator. Reading a list cannot fail on a derivation.

Results:
* `exists_leftListOnto_of_derivation`: a derivation of a list has members, derivations of the symbol
  that the list is of.
* `exists_itemNodes`: every derivation of a query has nodes of items.
-/

namespace PixQuery.Query

open PixQuery.Grammar (Sym numbered?)

/-- Whether a body is that of a list of `x`: one member, or a list and one more member. -/
def isListBody (key : String) (x : Sym) : List Sym → Bool
  | [y] => y == x
  | [list, y] => list == .nonterminal key && y == x
  | [list, _, y] => list == .nonterminal key && y == x
  | _ => false

/-- Every production of the key has the body of a list of `x`. -/
def IsListKey (key : String) (x : Sym) : Prop :=
  ∀ p ∈ productions, p.key = key → isListBody key x p.body = true

theorem isListKey_sequence : IsListKey "SEQUENCE" (.nonterminal "SEQUENCE_ITEM") := by
  unfold IsListKey
  decide

theorem isKey_of_symbol {key : String} {t : Tree} (h : t.symbol = .nonterminal key) :
    isKey key t = true := by
  cases t with
  | leaf t => cases h
  | node n k children range =>
    obtain rfl := Sym.nonterminal.inj h
    exact beq_self_eq_true k

theorem isKey_of_symbol_ne {key other : String} {t : Tree} (h : t.symbol = .nonterminal key)
    (hne : key ≠ other) : isKey other t = false := by
  cases t with
  | leaf t => cases h
  | node n k children range =>
    obtain rfl := Sym.nonterminal.inj h
    exact beq_false_of_ne hne

theorem expect_of_symbol {key : String} {t : Tree} (h : t.symbol = .nonterminal key)
    (parent : Tree) : expect key parent t = .ok t :=
  if_pos (isKey_of_symbol h)

/-- One more member behind a list, with or without a separator. -/
theorem leftListOnto_node {key : String} {n : Nat} {range : Span} {t u : Tree}
    {leaves us : List Tree} (ht : isKey key t = true) (hleaves : leaves.length ≤ 1) :
    leftListOnto key us (.node n key (t :: (leaves ++ [u])) range) =
      leftListOnto key (u :: us) t := by
  match leaves, hleaves with
  | [], _ => simp [leftListOnto, ht]
  | [_], _ => simp [leftListOnto, ht]

/-- The symbols of the children of a list are the body of a list. -/
theorem isListBody_of_derivation {key : String} {x : Sym} (hkey : IsListKey key x) {n : Nat}
    {children : List Tree} {range : Span}
    (h : (Tree.node n key children range).IsDerivation productions) :
    isListBody key x (children.map Tree.symbol) = true ∧
      ∀ t ∈ children, t.IsDerivation productions := by
  obtain ⟨⟨p, hp, hk, hbody⟩, hchildren⟩ := h
  exact ⟨hbody ▸ hkey p (Grammar.mem_of_numbered hp) hk, Tree.allDerivations_iff.mp hchildren⟩

/-- **A derivation of a list has members**, which are derivations of the symbol of the list. -/
theorem exists_leftListOnto_of_derivation {key : String} {x : Sym} (hkey : IsListKey key x) :
    ∀ {t : Tree} {done : List Tree}, t.IsDerivation productions → t.symbol = .nonterminal key →
      ∃ ts, leftListOnto key done t = .ok (ts ++ done) ∧
        ∀ u ∈ ts, u.IsDerivation productions ∧ u.symbol = x
  | .leaf _, _, _, h => by cases h
  | .node n k [] range, done, ht, h => by
    obtain rfl := Sym.nonterminal.inj h
    cases (isListBody_of_derivation hkey ht).1
  | .node n k [only] range, done, ht, h => by
    obtain rfl := Sym.nonterminal.inj h
    obtain ⟨hbody, hchildren⟩ := isListBody_of_derivation hkey ht
    have hx : only.symbol = x := by simpa [isListBody] using hbody
    exact ⟨[only], by simp [leftListOnto],
      List.forall_mem_singleton.mpr ⟨hchildren only (by simp), hx⟩⟩
  | .node n k [list, last] range, done, ht, h => by
    obtain rfl := Sym.nonterminal.inj h
    obtain ⟨hbody, hchildren⟩ := isListBody_of_derivation hkey ht
    obtain ⟨hlist, hx⟩ : list.symbol = .nonterminal k ∧ last.symbol = x := by
      simpa [isListBody] using hbody
    obtain ⟨ts, hts, hmembers⟩ := @exists_leftListOnto_of_derivation k x hkey list
      (last :: done) (hchildren list (by simp)) hlist
    exact ⟨ts ++ [last], by simp [leftListOnto, isKey_of_symbol hlist, hts],
      List.forall_mem_append.mpr
        ⟨hmembers, List.forall_mem_singleton.mpr ⟨hchildren last (by simp), hx⟩⟩⟩
  | .node n k [list, separator, last] range, done, ht, h => by
    obtain rfl := Sym.nonterminal.inj h
    obtain ⟨hbody, hchildren⟩ := isListBody_of_derivation hkey ht
    obtain ⟨hlist, hx⟩ : list.symbol = .nonterminal k ∧ last.symbol = x := by
      simpa [isListBody] using hbody
    obtain ⟨ts, hts, hmembers⟩ := @exists_leftListOnto_of_derivation k x hkey list
      (last :: done) (hchildren list (by simp)) hlist
    exact ⟨ts ++ [last], by simp [leftListOnto, isKey_of_symbol hlist, hts],
      List.forall_mem_append.mpr
        ⟨hmembers, List.forall_mem_singleton.mpr ⟨hchildren last (by simp), hx⟩⟩⟩
  | .node n k (_ :: _ :: _ :: _ :: _) range, done, ht, h => by
    obtain rfl := Sym.nonterminal.inj h
    cases (isListBody_of_derivation hkey ht).1

/-- **Every derivation of a query has nodes of items.** -/
theorem exists_itemNodes {root : Tree} (h : root.IsDerivation productions)
    (hsymbol : root.symbol = .nonterminal "SEQUENCE") :
    ∃ nodes, itemNodes root = .ok nodes ∧ ∀ n ∈ nodes, n.IsDerivation productions ∧
      n.symbol = .nonterminal "SEQUENCE_ITEM" := by
  obtain ⟨ts, hts, hmembers⟩ :=
    @exists_leftListOnto_of_derivation _ _ isListKey_sequence root [] h hsymbol
  rw [List.append_nil] at hts
  have hexpect : ts.mapM (expect "SEQUENCE_ITEM" root) = .ok (ts.map id) :=
    Understood.mapM_eq_ok (List.forall₂_refl ts) fun u hu v huv => by
      obtain rfl : u = v := huv
      exact expect_of_symbol (hmembers u hu).2 root
  refine ⟨ts, ?_, hmembers⟩
  rw [itemNodes, leftList, hts, Understood.ok_bind, hexpect, List.map_id]

end PixQuery.Query
