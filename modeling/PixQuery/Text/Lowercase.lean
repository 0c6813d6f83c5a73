import PixQuery.Text.CaseTable

/-!
# Lower case and case folding

`lower` writes a text in lower case as Unicode does it for no language in particular: a capital
sigma at the end of a word becomes a final sigma, and a capital I with a dot becomes an i and a dot.
`fold` takes characters that differ only in case to one of them; it works on single characters.
-/

namespace PixQuery.Text

/-- Where a run takes a code point. -/
def CaseRun.apply? (r : CaseRun) (n : Nat) : Option Nat :=
  if r.first ≤ n ∧ n ≤ r.last ∧ (n - r.first) % r.step = 0 then some (n + r.shift).toNat else none

/-- Where the runs take a character; characters in none of them stay. -/
def throughRuns (runs : List CaseRun) (c : Char) : Char :=
  match runs.findSome? fun r => r.apply? c.toNat with
  | some n => Char.ofNat n
  | none => c

/-- Whether a code point lies in one of the stretches. -/
def inStretches (stretches : List (Nat × Nat)) (c : Char) : Bool :=
  stretches.any fun s => s.1 ≤ c.toNat && c.toNat ≤ s.2

/-- Whether the first character that is not passed over has case. -/
def meetsCase (cs : List Char) : Bool :=
  match cs.dropWhile (inStretches caseIgnorableStretches) with
  | c :: _ => inStretches casedStretches c
  | [] => false

/-- Lower case of a character; `before` stands before it, last character first, and `after` behind
it. -/
def lowerChar (before : List Char) (c : Char) (after : List Char) : List Char :=
  if c.toNat < 128 then [c.toLower]
  else if c = 'Σ' then [if meetsCase before && !meetsCase after then 'ς' else 'σ']
  else if c = 'İ' then ['i', Char.ofNat 0x307]
  else [throughRuns lowerRuns c]

/-- Lower case of the rest of a text, of which `before` has been read, last character first. -/
def lowerFrom (before : List Char) : List Char → List Char
  | [] => []
  | c :: cs => lowerChar before c cs ++ lowerFrom (c :: before) cs

/-- Lower case of a text (`to_lowercase`). -/
def lower (cs : List Char) : List Char := lowerFrom [] cs

/-- The character that stands for `c` and all that differ from it only in case. -/
def fold (c : Char) : Char := if c.toNat < 128 then c.toLower else throughRuns foldRuns c

end PixQuery.Text
