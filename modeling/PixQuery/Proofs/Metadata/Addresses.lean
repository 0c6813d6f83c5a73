import Mathlib.Data.List.Forall2
import PixQuery.Proofs.Metadata.Ancestors

/-!
# A path selects nodes by their ancestors

The address in front of a name is compared with the ancestors of a node in one walk, from the
nearest ancestor up and from the last part of the address on. A part is given the nearest ancestor
that fits, and no choice is taken back. The walk finds a selection of ancestors for the parts if
there is one at all: an ancestor that is nearer leaves the parts before no fewer ancestors to choose
from.

What the walk chooses from are the nodes on the way up, as often as they are passed (`wayUp`). Where
the way comes round in a ring, an ancestor can so be given to two parts, and the address that a node
carries repeats it. What a path should mean is said with the ancestors once each (`ancestry`).

Results:
* `Snapshot.matchesInOrder_iff`, `Snapshot.addressMatches_iff`: the walk succeeds just when some of
  the ancestors, in their order, fit the parts.
* `Snapshot.meant_eq_iff`: when it makes no difference that ancestors are passed again.
* `Snapshot.byName_nodes`: which nodes a path means, and with which addresses.
-/

namespace PixQuery

/-! ## Parts and names -/

namespace NamePart

/-- Whether only the very same name is meant. A part in which asterisks and question marks stand for
other characters is never exact. -/
def IsExact (part : NamePart) : Prop := part.exact = true ∧ part.pattern = false

/-- Whether a part fits an entity: it matches the name, or one of the other names unless it is
exact. -/
def Fits (part : NamePart) (name : String) (otherNames : List String) : Prop :=
  (Matcher.ofPart part).matchesOne name = true ∨
    ¬ part.IsExact ∧ ∃ other ∈ otherNames, (Matcher.ofPart part).matchesOne other = true

end NamePart

theorem Matcher.matchesNames_ofPart_iff {part : NamePart} {name : String}
    {otherNames : List String} :
    (ofPart part).matchesNames name otherNames = true ↔ part.Fits name otherNames := by
  obtain ⟨text, exact, pattern⟩ := part
  cases pattern <;> cases exact <;>
    simp [ofPart, matchesNames, matchesOne, NamePart.Fits, NamePart.IsExact]

instance (part : NamePart) (name : String) (otherNames : List String) :
    Decidable (part.Fits name otherNames) :=
  decidable_of_iff _ Matcher.matchesNames_ofPart_iff

namespace Snapshot

variable {family : FlagFamily} {nodes : List (Node family)}

/-! ## Choosing ancestors -/

/-- **The walk succeeds just when some nodes can be chosen**, in their order, that the matchers
match one by one. A choice that leaves the first matching node out may take it in the place of the
node that it has for the first matcher. -/
theorem matchesInOrder_iff {ms : List Matcher} : matchesInOrder nodes ms = true ↔
    ∃ chosen, chosen.Sublist nodes ∧
      List.Forall₂ (fun m n => m.matchesNames n.name n.otherNames = true) ms chosen := by
  induction nodes generalizing ms with
  | nil => cases ms <;> simp [matchesInOrder]
  | cons node nodes ih =>
    cases ms with
    | nil => simp [matchesInOrder]
    | cons m ms =>
      rw [matchesInOrder]
      split
      case isTrue hfits =>
        rw [ih]
        constructor
        · rintro ⟨chosen, hsub, hall⟩
          exact ⟨node :: chosen, hsub.cons_cons node, .cons hfits hall⟩
        · rintro ⟨_, hsub, _ | ⟨-, hall⟩⟩
          exact ⟨_, hsub.tail, hall⟩
      case isFalse hmiss =>
        rw [ih]
        constructor
        · rintro ⟨chosen, hsub, hall⟩
          exact ⟨chosen, hsub.cons node, hall⟩
        · rintro ⟨chosen, hsub, hall⟩
          refine ⟨chosen, ?_, hall⟩
          cases hsub with
          | cons _ hsub => exact hsub
          | cons_cons _ _ => cases hall with | cons hfits _ => exact absurd hfits hmiss

/-- Whether nodes can be chosen from a line of ancestors, in their order, that the parts of an
address fit one by one. Nodes may be left out, and no place in the line is chosen twice. -/
def Leads (line : List (Node family)) (address : List NamePart) : Prop :=
  ∃ chosen : List (Node family), chosen.Sublist line ∧
    List.Forall₂ (fun part n => part.Fits n.name n.otherNames) address chosen

theorem Leads.mono {line line' : List (Node family)} {address : List NamePart}
    (h : Leads line address) (hsub : line.Sublist line') : Leads line' address := by
  obtain ⟨chosen, hchosen, hall⟩ := h
  exact ⟨chosen, hchosen.trans hsub, hall⟩

/-- The walk goes through both lists from their ends, and so through the same choices. -/
theorem matchesInOrder_reverse_iff {line : List (Node family)} {address : List NamePart} :
    matchesInOrder line.reverse (address.map Matcher.ofPart).reverse = true ↔
      Leads line address := by
  rw [matchesInOrder_iff, Leads, ← List.map_reverse]
  simp only [List.forall₂_map_left_iff, Matcher.matchesNames_ofPart_iff]
  constructor
  · rintro ⟨chosen, hsub, hall⟩
    exact ⟨chosen.reverse, by simpa using hsub.reverse,
      by rwa [← List.forall₂_reverse_iff, List.reverse_reverse]⟩
  · rintro ⟨chosen, hsub, hall⟩
    exact ⟨chosen.reverse, hsub.reverse, List.forall₂_reverse_iff.mpr hall⟩

instance (line : List (Node family)) (address : List NamePart) :
    Decidable (Leads line address) :=
  decidable_of_iff _ matchesInOrder_reverse_iff

theorem addressMatches_iff {address : List NamePart} {node : Node family} :
    addressMatches nodes (address.map Matcher.ofPart) node = true ↔
      Leads (lineage nodes node) address := by
  rw [addressMatches, ← matchesInOrder_reverse_iff, lineage, List.reverse_reverse]

/-! ## What a path means -/

/-- The ancestors of a node, the root first: each node that the way up from its parent passes,
once. -/
def ancestry (nodes : List (Node family)) (node : Node family) : List (Node family) :=
  (forebears nodes node.parent).reverse

/-- The way to a node from above: what the way up from its parent passes in fewer steps than there
are nodes, each node as often as it is passed. -/
def wayUp (nodes : List (Node family)) (node : Node family) : List (Node family) :=
  (passed nodes nodes.length node.parent).reverse

/-- **What a path means** where the nodes above a node are `line`: those stored nodes that its last
part fits and to which the parts before lead, in the order in which they are stored. Each carries
the names of the nodes above it. -/
def meant (line : Node family → List (Node family)) (nodes : List (Node family))
    (address : List NamePart) (last : NamePart) : List (Node family) :=
  (nodes.filter fun n => last.Fits n.name n.otherNames ∧ Leads (line n) address).map
    fun n => { n with address := (line n).map Node.name }

theorem wayUp_eq_lineage (nodes : List (Node family)) (node : Node family) :
    wayUp nodes node = lineage nodes node := by
  rw [wayUp, lineage, ancestors, climb_eq_passed]

theorem ancestry_sublist (nodes : List (Node family)) (node : Node family) :
    (ancestry nodes node).Sublist (wayUp nodes node) := by
  rw [wayUp_eq_lineage]
  exact (forebears_sublist nodes node.parent).reverse

theorem ancestry_eq_iff {node : Node family} :
    ancestry nodes node = wayUp nodes node ↔ PassesOnce nodes node.parent := by
  rw [wayUp_eq_lineage, ancestry, lineage, List.reverse_inj, forebears_eq_ancestors_iff]

theorem selectNodes_eq {address : List NamePart} {last : NamePart} :
    selectNodes nodes (address.map Matcher.ofPart) (Matcher.ofPart last).matchesNames =
      meant (wayUp nodes) nodes address last := by
  rw [selectNodes, meant, List.filter_filter]
  congr 1
  · funext n
    rw [addressed, wayUp_eq_lineage, lineage, List.map_reverse]
  · refine List.filter_congr fun n _ => ?_
    rw [Bool.eq_iff_iff, Bool.and_eq_true, addressMatches_iff, Matcher.matchesNames_ofPart_iff,
      decide_eq_true_iff, wayUp_eq_lineage, and_comm]

/-- All nodes that a path means have their ancestors once on the way up. -/
def MeansOnce (nodes : List (Node family)) (address : List NamePart) (last : NamePart) : Prop :=
  ∀ n ∈ nodes, last.Fits n.name n.otherNames → Leads (wayUp nodes n) address →
    PassesOnce nodes n.parent

/-- **That ancestors are passed again makes no difference** just when none of the nodes that a path
means has one twice: where the way is longer than the ancestors, the address is too, if the node is
meant with the ancestors at all. -/
theorem meant_eq_iff {address : List NamePart} {last : NamePart} :
    meant (wayUp nodes) nodes address last = meant (ancestry nodes) nodes address last ↔
      MeansOnce nodes address last := by
  have hmono : ∀ n, Leads (ancestry nodes n) address → Leads (wayUp nodes n) address :=
    fun n h => h.mono (ancestry_sublist nodes n)
  constructor
  · intro heq n hn hfits hleads
    -- As many nodes are found with the ancestors as with the way, so they are the same.
    have hsub : (nodes.filter fun n => last.Fits n.name n.otherNames ∧
          Leads (ancestry nodes n) address).Sublist
        (nodes.filter fun n => last.Fits n.name n.otherNames ∧ Leads (wayUp nodes n) address) :=
      List.monotone_filter_right _ fun n h => by
        rw [decide_eq_true_iff] at h ⊢
        exact ⟨h.1, hmono n h.2⟩
    have hlength := congrArg List.length heq
    simp only [meant, List.length_map] at hlength
    rw [meant, meant, hsub.eq_of_length hlength.symm, List.map_inj_left] at heq
    have hnames := congrArg (fun n => n.address.length)
      (heq n (List.mem_filter.mpr ⟨hn, decide_eq_true ⟨hfits, hleads⟩⟩))
    simp only [List.length_map] at hnames
    exact ancestry_eq_iff.mp ((ancestry_sublist nodes n).eq_of_length hnames.symm)
  · intro honce
    have hfilter : (nodes.filter fun n => last.Fits n.name n.otherNames ∧
          Leads (wayUp nodes n) address) =
        nodes.filter fun n => last.Fits n.name n.otherNames ∧ Leads (ancestry nodes n) address := by
      refine List.filter_congr fun n hn => ?_
      rw [decide_eq_decide, and_congr_right_iff]
      intro hfits
      refine ⟨fun hleads => ?_, hmono n⟩
      rw [ancestry_eq_iff.mpr (honce n hn hfits hleads)]
      exact hleads
    rw [meant, meant, ← hfilter, List.map_inj_left]
    intro n hn
    obtain ⟨hn, hmeant⟩ := List.mem_filter.mp hn
    obtain ⟨hfits, hleads⟩ := of_decide_eq_true hmeant
    rw [ancestry_eq_iff.mpr (honce n hn hfits hleads)]

/-- **What a path of tags or topics means** are the stored nodes that its last part fits and to
which the parts before lead, in the order in which they are stored, each with the names of the nodes
above it. The nodes above it are those on the way up, as often as it passes them. They are its
ancestors, none of them twice, for all nodes that are found just when the way up from each passes no
node again. -/
theorem byName_nodes (s : Snapshot) (address : List NamePart) (last : NamePart) :
    s.byName .tag (address ++ [last]) =
        (meant (wayUp s.tags) s.tags address last).map .tag ∧
      s.byName .topic (address ++ [last]) =
        (meant (wayUp s.topics) s.topics address last).map .topic ∧
      (s.byName .tag (address ++ [last]) =
          (meant (ancestry s.tags) s.tags address last).map .tag ↔
        MeansOnce s.tags address last) ∧
      (s.byName .topic (address ++ [last]) =
          (meant (ancestry s.topics) s.topics address last).map .topic ↔
        MeansOnce s.topics address last) := by
  have htag : s.byName .tag (address ++ [last]) =
      (meant (wayUp s.tags) s.tags address last).map .tag := by
    rw [byName_concat, select, selectNodes_eq]
  have htopic : s.byName .topic (address ++ [last]) =
      (meant (wayUp s.topics) s.topics address last).map .topic := by
    rw [byName_concat, select, selectNodes_eq]
  refine ⟨htag, htopic, ?_, ?_⟩
  · rw [htag, ← meant_eq_iff]
    exact (List.map_injective_iff.mpr fun _ _ => Entity.tag.inj).eq_iff
  · rw [htopic, ← meant_eq_iff]
    exact (List.map_injective_iff.mpr fun _ _ => Entity.topic.inj).eq_iff

/-- A tag that is its own parent is found below itself twice when there is one more tag, though it
has one ancestor only. -/
theorem byName_ouroboros :
    let tags := [ouroboros, ⟨2, "tail", [], none, .empty, []⟩]
    let part : NamePart := ⟨"snake", false, false⟩
    byName ⟨tags, [], [], []⟩ .tag ([part, part] ++ [part]) =
        [.tag { ouroboros with address := ["snake", "snake"] }] ∧
      ancestry tags ouroboros = [ouroboros] ∧
      meant (ancestry tags) tags [part, part] part = [] := by
  decide

end Snapshot

end PixQuery
