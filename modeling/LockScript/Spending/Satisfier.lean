import LockScript.Fragment.Basic

/-!
Whether a fragment can be satisfied with what is at hand.

A satisfier answers for secrets and for the spending transaction. Dissatisfactions are taken to be
available wherever they are needed.
-/

namespace LockScript

/-- What is at hand to satisfy a fragment. -/
structure Satisfier where
  /-- A signature by the key. -/
  signature : Key → Option Bytes
  /-- A key with the hash. -/
  keyForHash : Digest 20 → Option Key
  /-- A message with the digest. -/
  preimage : (f : HashFunction) → Digest f.width → Option Bytes
  /-- Whether the spending transaction meets a relative lock time. -/
  older : UInt32 → Bool
  /-- Whether the spending transaction meets an absolute lock time. -/
  after : UInt32 → Bool

namespace Satisfier

/-- Whether there is a signature by the key. -/
def signs (s : Satisfier) (key : Key) : Bool := (s.signature key).isSome

end Satisfier

/-- Whether a leaf can be satisfied. -/
def Leaf.canSatisfy (s : Satisfier) : Leaf → Bool
  | .zero => false
  | .one => true
  | .pk key => s.signs key
  | .pkHash hash => match s.keyForHash hash with
    | none => false
    | some key => s.signs key
  | .after lock => s.after lock
  | .older lock => s.older lock
  | .hashLock f image => (s.preimage f image).isSome
  | .multi k keys => k ≤ keys.countP s.signs

/-- Whether a combination can be satisfied, given which of its two parts can. -/
def Combinator.canSatisfy : Combinator → Bool → Bool → Bool
  | .andV, x, y => x && y
  | .andB, x, y => x && y
  | .orB, x, z => x || z
  | .orD, x, z => x || z
  | .orC, x, z => x || z
  | .orI, x, z => x || z

namespace Fragment

mutual

/-- Whether some satisfaction of the fragment exists. -/
def canSatisfy (s : Satisfier) : Fragment → Bool
  | .leaf l => l.canSatisfy s
  | .wrap _ x => x.canSatisfy s
  | .pair op x y => op.canSatisfy (x.canSatisfy s) (y.canSatisfy s)
  | .andor x y z => x.canSatisfy s && y.canSatisfy s || z.canSatisfy s
  | .thresh k subs => k ≤ countSatisfiable s subs

/-- How many of the fragments can be satisfied. -/
def countSatisfiable (s : Satisfier) : List Fragment → Nat
  | [] => 0
  | x :: rest => (if x.canSatisfy s then 1 else 0) + countSatisfiable s rest

end

/-- The count is over the fragments one by one. -/
theorem countSatisfiable_eq_countP (s : Satisfier) (subs : List Fragment) :
    countSatisfiable s subs = subs.countP (canSatisfy s) := by
  induction subs with
  | nil => rfl
  | cons x rest ih => simp [countSatisfiable, ih, List.countP_cons, Nat.add_comm]

end Fragment

end LockScript
