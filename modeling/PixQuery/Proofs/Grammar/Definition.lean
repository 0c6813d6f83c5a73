import Mathlib.Algebra.Order.BigOperators.Group.List
import Mathlib.Algebra.Order.Group.Nat
import Mathlib.Data.List.Forall2
import PixQuery.Grammar.Production
import PixQuery.Proofs.Text.Words

/-!
# Rules that are written are read back

A definition text has one rule to a line and the names of a rule between spaces. Names without white
space in them come back as the words of the line, and lines without line ends in them as the lines
of the text. What is read from a text can be told from its rules: each was read from a line of its
own.

Results:
* `readRule_chars`: a rule that is written on a line is read from it.
* `readDefinition_definitionOf`: the rules of a definition text are read from it.
* `rules_of_readDefinition`, `forall₂_of_readRules`: what is read from a text.
* `isWord_of_readDefinition`, `length_of_readDefinition`: the names that are read, and how many.
-/

namespace PixQuery

namespace Grammar

/-- A rule as it is written on a line. -/
def Rule.chars (r : Rule) : List Char :=
  r.key.toList ++ ("->" :: r.first :: r.others).flatMap fun s => ' ' :: s.toList

/-- A definition text with these rules. -/
def definitionOf (rules : List Rule) : String :=
  String.ofList (rules.flatMap fun r => r.chars ++ ['\n'])

/-- The names of a rule are words, none of them is reserved, and the line is no remark. -/
def Rule.IsPlain (r : Rule) : Prop :=
  (∀ s ∈ r.key :: r.first :: r.others, Text.IsWord s.toList ∧ s ≠ eof) ∧
    r.key.toList.head? ≠ some '/'

instance (r : Rule) : Decidable r.IsPlain := inferInstanceAs (Decidable (_ ∧ _))

/-- The words on the line of a rule, behind its key. -/
def Rule.behindKey (r : Rule) : List (List Char) :=
  ("->" :: r.first :: r.others).map String.toList

theorem Rule.chars_eq (r : Rule) :
    r.chars = r.key.toList ++ r.behindKey.flatMap fun w => ' ' :: w := by
  rw [Rule.chars, Rule.behindKey, List.flatMap_map]

theorem Rule.IsPlain.isWord {r : Rule} (h : r.IsPlain) :
    ∀ w ∈ r.key.toList :: r.behindKey, Text.IsWord w := by
  refine List.forall_mem_cons.mpr ⟨(h.1 r.key List.mem_cons_self).1, fun w hw => ?_⟩
  obtain ⟨s, hs, rfl⟩ := List.mem_map.mp hw
  rcases List.mem_cons.mp hs with rfl | hs
  · decide
  · exact (h.1 s (List.mem_cons_of_mem _ hs)).1

theorem Rule.words_chars {r : Rule} (h : r.IsPlain) :
    (Text.words r.chars).map String.ofList = r.key :: "->" :: r.first :: r.others := by
  have hwords := List.forall_mem_cons.mp h.isWord
  rw [r.chars_eq, Text.words_spaced hwords.1 hwords.2]
  simp [Rule.behindKey, String.ofList_toList]

/-- A rule that is written begins with its key, and so it is no remark. -/
theorem Rule.isRemark_chars {r : Rule} (h : r.IsPlain) : isRemark r.chars = false := by
  have hword := (h.1 r.key List.mem_cons_self).1
  obtain ⟨c, cs, hkey⟩ := List.exists_cons_of_ne_nil hword.1
  have hslash : c ≠ '/' := fun heq => h.2 (by rw [hkey, heq]; rfl)
  obtain ⟨ds, htrim⟩ := Text.exists_trim_cons (hword.2 c (hkey ▸ List.mem_cons_self))
    (cs ++ ("->" :: r.first :: r.others).flatMap fun s => ' ' :: s.toList)
  rw [isRemark, Rule.chars, hkey, List.cons_append, htrim]
  split
  · rename_i heq
    cases heq
  · rename_i heq
    exact absurd (List.cons.inj heq).1 hslash
  · rfl

/-- **A rule that is written is read back.** -/
theorem readRule_chars {r : Rule} (h : r.IsPlain) (line : Nat) : readRule line r.chars = .ok r := by
  have hreserved : (r.key :: r.first :: r.others).contains eof = false := by
    rw [Bool.eq_false_iff]
    intro hmem
    exact (h.1 eof (List.contains_iff_mem.mp hmem)).2 rfl
  rw [readRule, Rule.words_chars h]
  simp only [hreserved]
  rfl

theorem readRules_chars : ∀ {rules : List Rule}, (∀ r ∈ rules, r.IsPlain) → ∀ line,
    readRules line (rules.map Rule.chars) = .ok rules
  | [], _, _ => rfl
  | r :: rules, h, line => by
    obtain ⟨hr, hrules⟩ := List.forall_mem_cons.mp h
    rw [List.map_cons, readRules, Rule.isRemark_chars hr, readRule_chars hr,
      if_neg Bool.false_ne_true, readRules_chars hrules]
    rfl

/-- **The rules of a definition text** are read from it. -/
theorem readDefinition_definitionOf {rules : List Rule} (hne : rules ≠ [])
    (h : ∀ r ∈ rules, r.IsPlain) :
    readDefinition (definitionOf rules) = .ok (productionsOf rules) := by
  have hlines : Text.lines (definitionOf rules).toList = rules.map Rule.chars := by
    have hflat : (rules.flatMap fun r => r.chars ++ ['\n']) =
        (rules.map Rule.chars).flatMap fun l => l ++ ['\n'] := by
      rw [List.flatMap_map]
    rw [definitionOf, String.toList_ofList, hflat]
    refine Text.lines_flatMap fun l hl => ?_
    obtain ⟨r, hr, rfl⟩ := List.mem_map.mp hl
    rw [r.chars_eq]
    exact Text.not_mem_spaced (h r hr).isWord
  rw [readDefinition, hlines, readRules_chars h]
  simp only [bind, Except.bind, List.isEmpty_iff, hne, if_false]

/-! ## What is read -/

/-- The words of a line that is read as a rule. -/
theorem words_of_readRule {line : Nat} {cs : List Char} {r : Rule} (h : readRule line cs = .ok r) :
    (Text.words cs).map String.ofList = r.key :: "->" :: r.first :: r.others ∧
      eof ∉ r.key :: r.first :: r.others := by
  unfold readRule at h
  split at h
  · rename_i hwords
    split at h
    · cases h
    · split at h
      · cases h
      · rename_i hreserved
        obtain rfl := Except.ok.inj h
        exact ⟨hwords, by simpa [List.contains_iff_mem] using hreserved⟩
  · cases h

/-- The names of a rule that is read are words. -/
theorem isWord_of_readRule {line : Nat} {cs : List Char} {r : Rule} (h : readRule line cs = .ok r) :
    ∀ s ∈ r.key :: r.first :: r.others, Text.IsWord s.toList := by
  intro s hs
  have hmem : s ∈ (Text.words cs).map String.ofList := by
    rw [(words_of_readRule h).1]
    exact List.mem_cons.mpr ((List.mem_cons.mp hs).imp_right (List.mem_cons_of_mem _))
  obtain ⟨w, hw, rfl⟩ := List.mem_map.mp hmem
  rw [String.toList_ofList]
  exact Text.isWord_of_mem_words hw

/-- A rule is no longer than its line. -/
theorem length_of_readRule {line : Nat} {cs : List Char} {r : Rule} (h : readRule line cs = .ok r) :
    r.others.length + 3 ≤ cs.length := by
  have hlength := congrArg List.length (words_of_readRule h).1
  have hle := Text.length_words_le cs
  simp only [List.length_map, List.length_cons] at hlength
  omega

/-- **Every rule is read from a line of its own**, in the order of the lines. -/
theorem forall₂_of_readRules : ∀ {ls : List (List Char)} {line : Nat} {rules : List Rule},
    readRules line ls = .ok rules → ∃ ms, ms.Sublist ls ∧
      List.Forall₂ (fun l r => ∃ n, readRule n l = .ok r) ms rules
  | [], _, rules, h => by
    obtain rfl := Except.ok.inj h
    exact ⟨[], .slnil, .nil⟩
  | l :: ls, line, rules, h => by
    simp only [readRules] at h
    split at h
    · obtain ⟨ms, hms, hrules⟩ := forall₂_of_readRules h
      exact ⟨ms, hms.cons l, hrules⟩
    · cases hrule : readRule line l with
      | error e => rw [hrule] at h; cases h
      | ok rule =>
        cases hrest : readRules (line + 1) ls with
        | error e => rw [hrule, hrest] at h; cases h
        | ok rest =>
          rw [hrule, hrest] at h
          obtain rfl := Except.ok.inj h
          obtain ⟨ms, hms, hrules⟩ := forall₂_of_readRules hrest
          exact ⟨l :: ms, hms.cons_cons l, .cons ⟨line, hrule⟩ hrules⟩

theorem exists_readRule_of_mem {ls : List (List Char)} {line : Nat} {rules : List Rule}
    (h : readRules line ls = .ok rules) {r : Rule} (hr : r ∈ rules) :
    ∃ n l, readRule n l = .ok r := by
  obtain ⟨ms, -, hrules⟩ := forall₂_of_readRules h
  clear h
  induction hrules with
  | nil => exact absurd hr List.not_mem_nil
  | cons hread _ ih =>
    rcases List.mem_cons.mp hr with rfl | hr
    · exact hread.imp fun n hn => ⟨_, hn⟩
    · exact ih hr

/-- The rules are together no longer than the lines. -/
theorem sum_length_le_of_readRules {ls : List (List Char)} {line : Nat} {rules : List Rule}
    (h : readRules line ls = .ok rules) :
    (rules.map fun r => r.others.length + 3).sum ≤ (ls.map List.length).sum := by
  obtain ⟨ms, hms, hrules⟩ := forall₂_of_readRules h
  have hle : List.Forall₂ (· ≤ ·) (rules.map fun r => r.others.length + 3)
      (ms.map List.length) := by
    rw [List.forall₂_map_left_iff, List.forall₂_map_right_iff]
    exact (hrules.imp fun _ _ ⟨_, hread⟩ => length_of_readRule hread).flip
  exact hle.sum_le_sum.trans (List.Sublist.sum_le_sum (hms.map _) fun _ _ => Nat.zero_le _)

/-- A definition text is read rule by rule. -/
theorem rules_of_readDefinition {text : String} {ps : List Production}
    (h : readDefinition text = .ok ps) : ∃ rules, rules ≠ [] ∧ ps = productionsOf rules ∧
      readRules 1 (Text.lines text.toList) = .ok rules := by
  unfold readDefinition at h
  cases hrules : readRules 1 (Text.lines text.toList) with
  | error e => rw [hrules] at h; cases h
  | ok rules =>
    rw [hrules] at h
    simp only [bind, Except.bind] at h
    split at h
    · cases h
    · rename_i hne
      exact ⟨rules, by simpa using hne, (Except.ok.inj h).symm, rfl⟩

theorem exists_rule_of_terminal {rules : List Rule} {p : Production} (hp : p ∈ productionsOf rules)
    {name : String} (h : .terminal name ∈ p.body) : ∃ r ∈ rules, name ∈ r.first :: r.others := by
  obtain ⟨r, hr, rfl⟩ := List.mem_map.mp hp
  have hbody : .terminal name ∈ (r.first :: r.others).map (Sym.ofName (rules.map Rule.key)) := h
  obtain ⟨s, hs, heq⟩ := List.mem_map.mp hbody
  unfold Sym.ofName at heq
  split at heq
  · cases heq
  · obtain rfl := Sym.terminal.inj heq
    exact ⟨r, hr, hs⟩

/-- The keys and the terminals of the productions that are read are words. -/
theorem isWord_of_readDefinition {text : String} {ps : List Production}
    (h : readDefinition text = .ok ps) {p : Production} (hp : p ∈ ps) :
    Text.IsWord p.key.toList ∧ ∀ name, .terminal name ∈ p.body → Text.IsWord name.toList := by
  obtain ⟨rules, _, rfl, hrules⟩ := rules_of_readDefinition h
  refine ⟨?_, fun name hname => ?_⟩
  · obtain ⟨r, hr, rfl⟩ := List.mem_map.mp hp
    obtain ⟨n, l, hread⟩ := exists_readRule_of_mem hrules hr
    exact isWord_of_readRule hread r.key List.mem_cons_self
  · obtain ⟨r, hr, hmem⟩ := exists_rule_of_terminal hp hname
    obtain ⟨n, l, hread⟩ := exists_readRule_of_mem hrules hr
    exact isWord_of_readRule hread name (List.mem_cons_of_mem _ hmem)

/-- The productions that are read, and the symbols in them, are no more than the characters. -/
theorem length_of_readDefinition {text : String} {ps : List Production}
    (h : readDefinition text = .ok ps) :
    (ps.map fun p => p.body.length).sum + 2 * ps.length ≤ text.toList.length := by
  obtain ⟨rules, -, rfl, hrules⟩ := rules_of_readDefinition h
  have hsum : ((productionsOf rules).map fun p => p.body.length).sum + 2 * rules.length =
      (rules.map fun r => r.others.length + 3).sum := by
    clear hrules h
    simp only [productionsOf, List.map_map, Function.comp_def, Production.body, List.length_map,
      List.length_cons]
    induction rules with
    | nil => rfl
    | cons r rules ih =>
      simp only [List.map_cons, List.sum_cons, List.length_cons]
      omega
  have hlength : (productionsOf rules).length = rules.length := by simp [productionsOf]
  rw [hlength, hsum]
  exact (sum_length_le_of_readRules hrules).trans (Text.sum_length_lines_le _)

end Grammar

end PixQuery
