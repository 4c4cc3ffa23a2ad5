import LockScript.Policy.TimeLock

/-!
The policy that a fragment enforces.
-/

namespace LockScript

/-- The policy of a leaf. -/
def Leaf.policy : Leaf → Policy
  | .zero => .unsatisfiable
  | .one => .trivial
  | .pk key => .leaf (.key key) []
  | .pkHash hash => .leaf (.keyHash hash) []
  | .after lock => .leaf (.after lock) []
  | .older lock => .leaf (.older lock) []
  | .hashLock f image => .leaf (.hash f image.bytes) []
  | .multi k keys => .threshold k (keys.map fun key => .leaf (.key key) [])

/-- How many of its two parts a combination needs. -/
def Combinator.needed : Combinator → Int
  | .andV => 2
  | .andB => 2
  | .orB => 1
  | .orD => 1
  | .orC => 1
  | .orI => 1

namespace Fragment

mutual

/-- The policy that a fragment enforces, fragment by fragment. Wrappers change how something is
enforced, not what it requires. -/
def policy : Fragment → Policy
  | .leaf l => l.policy
  | .wrap _ x => x.policy
  | .pair op x y => .threshold op.needed [x.policy, y.policy]
  | .andor x y z => .threshold 1 [.threshold 2 [x.policy, y.policy], z.policy]
  | .thresh k subs => .threshold k (policies subs)

/-- The policies that several fragments enforce. -/
def policies : List Fragment → List Policy
  | [] => []
  | x :: rest => x.policy :: policies rest

end

/-- The policies are those of the fragments one by one. -/
theorem policies_eq_map (subs : List Fragment) : policies subs = subs.map policy := by
  induction subs with
  | nil => rfl
  | cons x rest ih => simp [policies, ih]

end Fragment

/-- A policy in normal form, if it does not mix the units of lock times. -/
def Policy.settled (p : Policy) : Except Policy.MixedLocks Policy := do
  p.normalized.checkLocks
  return p.normalized

/-- The policy that a fragment enforces, in normal form. -/
def Fragment.lift (f : Fragment) : Except Policy.MixedLocks Policy := f.policy.settled

end LockScript
