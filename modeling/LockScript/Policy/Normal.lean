import LockScript.Policy.Basic

/-!
Normal forms of policies.

In a normalized policy no branch of a threshold is trivial or unsatisfiable, and every threshold has a
choice between two branches or more. Conjunctions and disjunctions give way to a threshold of their
own kind around them, as it was before trivial and unsatisfiable branches are taken out of it. Sorting
fixes the order of branches.
-/

namespace LockScript.Policy

/-- What a normalized branch comes to inside a threshold: how it changes the number of branches
needed, and the branches that take its place. A trivial branch is one less to find, an unsatisfiable
one is dropped, a conjunction inside a conjunction and a disjunction inside a disjunction give way to
their branches. -/
def merged (isAnd isOr : Bool) : Policy → Int × List Policy
  | .leaf .trivial _ => (-1, [])
  | .leaf .unsatisfiable _ => (0, [])
  | .leaf c attached => (0, [.leaf c attached])
  | .threshold k branches =>
    if isAnd ∧ k = branches.length then (k - 1, branches)
    else if isOr ∧ k = 1 then (0, branches)
    else (0, [.threshold k branches])

/-- How many branches are needed after a change to `k`. Such a number is a word of 64 bits with a
sign: one below zero may fall past the least word and comes out among the greatest. From zero on the
count is exact, since no list of branches is long enough to leave the words. -/
def stillNeeded (k change : Int) : Int :=
  if k < 0 then (k + change).bmod 0x10000000000000000 else k + change

/-- At least `k` of the branches, as a threshold only if there is something to choose. -/
def atLeast (k : Int) (branches : List Policy) : Policy :=
  if k ≤ 0 then trivial
  else if k > branches.length then unsatisfiable
  else match branches with
    | [p] => p
    | _ => .threshold k branches

mutual

/-- An equivalent policy in normal form. -/
def normalized : Policy → Policy
  | .leaf c attached => .leaf c attached
  | .threshold k branches =>
    let parts := (normalizedAll branches).map (merged (k = branches.length) (k = 1))
    atLeast (stillNeeded k ((parts.map (·.1)).foldr (· + ·) 0)) (parts.flatMap (·.2))

/-- The normal forms of several policies. -/
def normalizedAll : List Policy → List Policy
  | [] => []
  | p :: rest => p.normalized :: normalizedAll rest

end

/-- The normal forms are those of the policies one by one. -/
theorem normalizedAll_eq_map (ps : List Policy) : normalizedAll ps = ps.map normalized := by
  induction ps with
  | nil => rfl
  | cons p rest ih => simp [normalizedAll, ih]

/-- Policies in ascending order of their texts; those with the same text stay in order. -/
def inOrder (ps : List Policy) : List Policy :=
  ((ps.map fun p => (p.text, p)).mergeSort fun a b => a.1 ≤ b.1).map (·.2)

mutual

/-- The policy with the branches of every threshold in order. -/
def sorted : Policy → Policy
  | .leaf c attached => .leaf c attached
  | .threshold k branches => .threshold k (inOrder (sortedAll branches))

/-- Several policies, each with its branches in order. -/
def sortedAll : List Policy → List Policy
  | [] => []
  | p :: rest => p.sorted :: sortedAll rest

end

/-- Sorting several policies is sorting them one by one. -/
theorem sortedAll_eq_map (ps : List Policy) : sortedAll ps = ps.map sorted := by
  induction ps with
  | nil => rfl
  | cons p rest ih => simp [sortedAll, ih]

end LockScript.Policy
