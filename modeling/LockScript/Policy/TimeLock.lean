import LockScript.Policy.Normal
import LockScript.Spending.Transaction

/-!
Lock times in policies: what is left of a policy at a given age or lock time, and whether it mixes
units that no transaction can meet together.
-/

namespace LockScript

namespace Condition

/-- Whether a relative lock time counts in units of 512 seconds rather than in blocks. -/
def isRelativeTime (lock : UInt32) : Bool := lock &&& Transaction.secondsBit != 0

/-- Whether an absolute lock time is a time rather than a block height. -/
def isAbsoluteTime (lock : UInt32) : Bool := Transaction.timeThreshold ≤ lock

/-- Whether an input of the age that `sequence` gives meets the relative lock time. -/
def relativeLockMet (sequence lock : UInt32) : Bool :=
  isRelativeTime lock == isRelativeTime sequence
    && lock &&& Transaction.countMask ≤ sequence &&& Transaction.countMask

/-- Whether a transaction with this lock time meets the absolute lock time. -/
def absoluteLockMet (lockTime lock : UInt32) : Bool :=
  isAbsoluteTime lock == isAbsoluteTime lockTime && lock ≤ lockTime

/-- Whether the condition is a relative lock time that is not met at this age. -/
def isTooYoung (sequence : UInt32) : Condition → Bool
  | .older lock => !relativeLockMet sequence lock
  | _ => false

/-- Whether the condition is an absolute lock time that this lock time does not meet. -/
def isTooEarly (lockTime : UInt32) : Condition → Bool
  | .after lock => !absoluteLockMet lockTime lock
  | _ => false

end Condition

namespace Policy

mutual

/-- The policy with the conditions that `unmet` singles out made unsatisfiable. -/
def without (unmet : Condition → Bool) : Policy → Policy
  | .leaf c attached => if unmet c then unsatisfiable else .leaf c attached
  | .threshold k branches => .threshold k (withoutAll unmet branches)

/-- Several policies with the same conditions made unsatisfiable. -/
def withoutAll (unmet : Condition → Bool) : List Policy → List Policy
  | [] => []
  | p :: rest => p.without unmet :: withoutAll unmet rest

end

/-- What is left of the policy for an input of the age that `sequence` gives, in normal form. -/
def atAge (sequence : UInt32) (p : Policy) : Policy :=
  (p.without (Condition.isTooYoung sequence)).normalized

/-- What is left of the policy for a transaction with this lock time, in normal form. -/
def atLockTime (lockTime : UInt32) (p : Policy) : Policy :=
  (p.without (Condition.isTooEarly lockTime)).normalized

end Policy

/-- The lock times that the ways to meet a policy use. -/
structure LockUse where
  /-- A relative lock time in blocks. -/
  olderHeight : Bool := false
  /-- A relative lock time in seconds. -/
  olderTime : Bool := false
  /-- An absolute lock time that is a height. -/
  afterHeight : Bool := false
  /-- An absolute lock time that is a time. -/
  afterTime : Bool := false
  /-- Two lock times of one kind and different units together. -/
  mixed : Bool := false
  deriving DecidableEq, Repr

namespace LockUse

/-- The use of a policy met by one or the other. -/
def either (a b : LockUse) : LockUse where
  olderHeight := a.olderHeight || b.olderHeight
  olderTime := a.olderTime || b.olderTime
  afterHeight := a.afterHeight || b.afterHeight
  afterTime := a.afterTime || b.afterTime
  mixed := a.mixed || b.mixed

/-- Whether meeting both mixes units. -/
def clash (a b : LockUse) : Bool :=
  a.mixed || b.mixed
    || (a.olderHeight && b.olderTime) || (a.olderTime && b.olderHeight)
    || (a.afterHeight && b.afterTime) || (a.afterTime && b.afterHeight)

/-- Whether meeting some two of them mixes units. -/
def anyClash : List LockUse → Bool
  | [] => false
  | a :: rest => rest.any a.clash || anyClash rest

/-- The use of `k` of these together. -/
def ofThreshold (k : Int) (uses : List LockUse) : LockUse :=
  let all := uses.foldl either {}
  if k < 2 then all else { all with mixed := all.mixed || anyClash uses }

/-- The use of a condition. -/
def ofCondition : Condition → LockUse
  | .older lock =>
    if Condition.isRelativeTime lock then { olderTime := true } else { olderHeight := true }
  | .after lock =>
    if Condition.isAbsoluteTime lock then { afterTime := true } else { afterHeight := true }
  | _ => {}

end LockUse

namespace Policy

mutual

/-- The lock times that the ways to meet the policy use. -/
def lockUse : Policy → LockUse
  | .leaf c _ => .ofCondition c
  | .threshold k branches => .ofThreshold k (lockUses branches)

/-- The lock times that several policies use. -/
def lockUses : List Policy → List LockUse
  | [] => []
  | p :: rest => p.lockUse :: lockUses rest

end

/-- A policy that can ask for lock times of one kind in both units at once. -/
structure MixedLocks where
  policy : Policy

/-- The wording of the error. -/
def MixedLocks.message (e : MixedLocks) : String :=
  s!"policy {shown e.policy.text} combines height and time based lock times"

/-- Accepts a policy of which no way to meet it mixes the units of lock times. -/
def checkLocks (p : Policy) : Except MixedLocks Unit :=
  if p.lockUse.mixed then .error ⟨p⟩ else .ok ()

end Policy

end LockScript
