import LockScript.Policy.Basic

/-!
The least number of signatures that meets a policy.
-/

namespace LockScript.Policy

/-- A threshold that asks for a negative number of branches, for which there is no least number of
signatures. -/
structure NegativeThreshold where
  k : Int
  deriving DecidableEq, Repr

/-- The least sum of `k` of the counts, if there are as many. -/
def leastSum (k : Int) (counts : List Nat) : Except NegativeThreshold (Option Nat) :=
  if counts.length < k then .ok none
  else if k < 0 then .error ⟨k⟩
  else .ok (some (((counts.mergeSort (· ≤ ·)).take k.toNat).foldr (· + ·) 0))

mutual

/-- The least number of signatures that any way to meet the policy needs; none if there is no way. -/
def minimumKeys : Policy → Except NegativeThreshold (Option Nat)
  | .leaf .unsatisfiable _ => .ok none
  | .leaf (.key _) _ => .ok (some 1)
  | .leaf (.keyHash _) _ => .ok (some 1)
  | .leaf _ _ => .ok (some 0)
  | .threshold k branches => do
    leastSum k (← minimumKeysOf branches)

/-- The least numbers of signatures for those of the policies that can be met. -/
def minimumKeysOf : List Policy → Except NegativeThreshold (List Nat)
  | [] => .ok []
  | p :: rest => do
    let first ← p.minimumKeys
    let others ← minimumKeysOf rest
    .ok (first.toList ++ others)

end

end LockScript.Policy
