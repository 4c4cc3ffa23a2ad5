import LockScript.Proofs.Policy.Lift
import LockScript.Spending.Wallet
import Mathlib.Data.Nat.Bitwise

/-!
Policies at the time of a transaction.

What a transaction does not meet of the lock times of a policy is made unsatisfiable by two filters,
one for the age of the input and one for the lock time. The filters and the transaction compare lock
times in ways of their own. They agree as long as relative lock times are not turned off
(`Condition.relativeLockMet_eq_older`, `Condition.absoluteLockMet_eq_after`), so that what is left of a
policy, once all lock times in it are taken to have come, is met just if the policy is met with the
transaction (`Wallet.isMet_timely`).
-/

namespace LockScript

/-! ## The unit and the count of a relative lock time -/

namespace Transaction

open Condition (isRelativeTime)

theorem toNat_and_secondsBit (x : UInt32) :
    (x &&& secondsBit).toNat = if isRelativeTime x then 0x400000 else 0 := by
  have bit : (x &&& secondsBit).toNat = (x.toNat.testBit 22).toNat * 0x400000 := by
    rw [UInt32.toNat_and]
    exact Nat.and_two_pow x.toNat 22
  have zero : x &&& secondsBit = 0 ↔ (x &&& secondsBit).toNat = 0 := UInt32.toNat_inj.symm
  simp only [isRelativeTime, bne_iff_ne, ne_eq, zero, bit]
  cases x.toNat.testBit 22 <;> decide

theorem toNat_and_countMask_lt (x : UInt32) : (x &&& countMask).toNat < 0x10000 := by
  rw [UInt32.toNat_and]
  exact Nat.lt_of_le_of_lt Nat.and_le_right (by decide)

/-- The unit and the count do not overlap. -/
theorem toNat_unitAndCount (x : UInt32) :
    (x &&& (secondsBit ||| countMask)).toNat =
      (if isRelativeTime x then 0x400000 else 0) + (x &&& countMask).toNat := by
  have disjoint : (x &&& secondsBit).toBitVec &&& (x &&& countMask).toBitVec = 0 := by
    calc (x &&& secondsBit).toBitVec &&& (x &&& countMask).toBitVec
        = x.toBitVec &&& secondsBit.toBitVec &&& (x.toBitVec &&& countMask.toBitVec) := rfl
      _ = x.toBitVec &&& x.toBitVec &&& (secondsBit.toBitVec &&& countMask.toBitVec) := by ac_rfl
      _ = x.toBitVec &&& x.toBitVec &&& 0 := rfl
      _ = 0 := BitVec.and_zero
  rw [← toNat_and_secondsBit]
  calc (x &&& (secondsBit ||| countMask)).toNat
      = (x.toBitVec &&& (secondsBit.toBitVec ||| countMask.toBitVec)).toNat := rfl
    _ = ((x &&& secondsBit).toBitVec ||| (x &&& countMask).toBitVec).toNat := by
      rw [BitVec.and_or_distrib_left]
      rfl
    _ = ((x &&& secondsBit).toBitVec + (x &&& countMask).toBitVec).toNat := by
      rw [BitVec.add_eq_or_of_and_eq_zero _ _ disjoint]
    _ = (x &&& secondsBit).toNat + (x &&& countMask).toNat :=
      BitVec.toNat_add_of_and_eq_zero disjoint

/-- Below the unit bit there are only the numbers in blocks. -/
theorem unitAndCount_lt_iff (x : UInt32) :
    x &&& (secondsBit ||| countMask) < secondsBit ↔ isRelativeTime x = false := by
  have count := toNat_and_countMask_lt x
  rw [UInt32.lt_iff_toNat_lt, toNat_unitAndCount, show secondsBit.toNat = 0x400000 from rfl]
  cases isRelativeTime x with
  | false =>
    rw [if_neg Bool.false_ne_true, eq_self, iff_true]
    omega
  | true =>
    rw [if_pos rfl]
    simp

/-- Numbers in the same unit compare like their counts. -/
theorem unitAndCount_le_iff {x y : UInt32} (same : isRelativeTime x = isRelativeTime y) :
    x &&& (secondsBit ||| countMask) ≤ y &&& (secondsBit ||| countMask) ↔
      x &&& countMask ≤ y &&& countMask := by
  rw [UInt32.le_iff_toNat_le, UInt32.le_iff_toNat_le, toNat_unitAndCount, toNat_unitAndCount, same,
    Nat.add_le_add_iff_left]

end Transaction

/-! ## Lock times that are met -/

namespace Condition

open Transaction (unitAndCount_lt_iff unitAndCount_le_iff)

variable {tx : Transaction}

/-- Where relative lock times are not turned off, the age of an input decides whether it meets one. -/
theorem relativeLockMet_eq_older (version : 2 ≤ tx.version)
    (enabled : tx.sequence &&& Transaction.disabledBit = 0) (lock : UInt32) :
    relativeLockMet tx.sequence lock = tx.older lock := by
  have current : ¬ tx.version < 2 := UInt32.not_lt.2 version
  simp only [Transaction.older, current, enabled, Transaction.sameUnit, relativeLockMet,
    unitAndCount_lt_iff]
  by_cases same : isRelativeTime lock = isRelativeTime tx.sequence
  · simp [same, unitAndCount_le_iff same]
  · have units : isRelativeTime lock = !isRelativeTime tx.sequence := by
      rwa [Bool.eq_not]
    simp [units]

theorem isAbsoluteTime_eq (lock : UInt32) :
    isAbsoluteTime lock = !decide (lock < Transaction.timeThreshold) := by
  rw [isAbsoluteTime, ← decide_not, decide_eq_decide, UInt32.not_lt]

/-- Where relative lock times are not turned off, an input is not final, and the lock time of the
transaction decides whether it meets an absolute one. -/
theorem absoluteLockMet_eq_after (enabled : tx.sequence &&& Transaction.disabledBit = 0)
    (lock : UInt32) : absoluteLockMet tx.lockTime lock = tx.after lock := by
  have notFinal : tx.sequence ≠ Transaction.finalSequence := by
    intro final
    rw [final] at enabled
    exact absurd enabled (by decide)
  rw [absoluteLockMet, isAbsoluteTime_eq, isAbsoluteTime_eq, Transaction.after,
    Transaction.sameUnit, bne_iff_ne.2 notFinal, Bool.true_and]
  cases decide (lock < Transaction.timeThreshold) <;>
    cases decide (tx.lockTime < Transaction.timeThreshold) <;> rfl

end Condition

/-! ## Filtered policies -/

namespace Policy

variable {met unmet : Condition → Bool}

theorem withoutAll_eq_map (ps : List Policy) : withoutAll unmet ps = ps.map (without unmet) := by
  induction ps with
  | nil => rfl
  | cons p rest ih => rw [withoutAll, ih, List.map_cons]

/-- What is made unsatisfiable is not met, and all else is met as before. -/
theorem isMet_without (consistent : Condition.Consistent met) (p : Policy) :
    (p.without unmet).isMet met = p.isMet fun c => !unmet c && met c := by
  induction p with
  | leaf c attached =>
    rw [without]
    cases left : unmet c with
    | false => simp [isMet, left]
    | true => simp [isMet, left, unsatisfiable, consistent.unsatisfiable]
  | threshold k branches ih =>
    have same : (branches.map (without unmet)).countP (isMet met) =
        branches.countP (isMet fun c => !unmet c && met c) := by
      rw [List.countP_map]
      apply List.countP_congr
      intro p member
      rw [Function.comp_apply, ih p member]
    rw [Bool.eq_iff_iff, without, withoutAll_eq_map, isMet_threshold_iff, isMet_threshold_iff, same]

theorem Counted.without {p : Policy} (counted : p.Counted) : (p.without unmet).Counted := by
  induction counted with
  | leaf c attached =>
    rw [Policy.without]
    split
    · exact .leaf _ _
    · exact .leaf c attached
  | threshold nonneg each ih =>
    rw [Policy.without, withoutAll_eq_map]
    exact .threshold nonneg (List.forall_mem_map.2 ih)

/-- What is left at an age is met by those who meet the policy with the lock times of that age. -/
theorem isMet_atAge (consistent : Condition.Consistent met) {p : Policy} (counted : p.Counted)
    (sequence : UInt32) :
    (p.atAge sequence).isMet met = p.isMet fun c => !c.isTooYoung sequence && met c := by
  rw [atAge, isMet_normalized consistent counted.without, isMet_without consistent]

theorem isMet_atLockTime (consistent : Condition.Consistent met) {p : Policy} (counted : p.Counted)
    (lockTime : UInt32) :
    (p.atLockTime lockTime).isMet met = p.isMet fun c => !c.isTooEarly lockTime && met c := by
  rw [atLockTime, isMet_normalized consistent counted.without, isMet_without consistent]

end Policy

/-! ## Satisfiers -/

/-- The same satisfier, for whom every lock time has come. -/
def Satisfier.timeless (s : Satisfier) : Satisfier :=
  { s with older := fun _ => true, after := fun _ => true }

namespace Wallet

variable {w : Wallet}

/-- A wallet meets the conditions that neither filter singles out and that it meets whatever the
time. -/
theorem meets_eq (version : 2 ≤ w.transaction.version)
    (enabled : w.transaction.sequence &&& Transaction.disabledBit = 0) (c : Condition) :
    w.satisfier.meets c =
      (!c.isTooYoung w.transaction.sequence &&
        (!c.isTooEarly w.transaction.lockTime && w.satisfier.timeless.meets c)) := by
  cases c with
  | older lock =>
    simp [Condition.isTooYoung, Condition.isTooEarly, Satisfier.meets, Satisfier.timeless,
      Condition.relativeLockMet_eq_older version enabled, satisfier]
  | after lock =>
    simp [Condition.isTooYoung, Condition.isTooEarly, Satisfier.meets, Satisfier.timeless,
      Condition.absoluteLockMet_eq_after enabled, satisfier]
  | _ => rfl

/-- What is left of a policy for the transaction of a wallet is met, whatever the time, just if the
wallet meets the policy. -/
theorem isMet_timely (version : 2 ≤ w.transaction.version)
    (enabled : w.transaction.sequence &&& Transaction.disabledBit = 0) {p : Policy}
    (counted : p.Counted) :
    ((p.atAge w.transaction.sequence).atLockTime w.transaction.lockTime).isMet
        w.satisfier.timeless.meets = p.isMet w.satisfier.meets := by
  have consistent : Condition.Consistent fun c =>
      !c.isTooEarly w.transaction.lockTime && w.satisfier.timeless.meets c := ⟨rfl, rfl⟩
  have counted' : (p.atAge w.transaction.sequence).Counted := counted.without.normalized
  rw [Policy.isMet_atLockTime w.satisfier.timeless.consistent_meets counted',
    Policy.isMet_atAge consistent counted]
  exact congrArg (p.isMet ·) (funext fun c => (meets_eq version enabled c).symm)

end Wallet

namespace Checked

/-- The time filters of the lifted policy agree with the transaction. For a wallet whose transaction
has relative lock times turned on, a fragment can be satisfied just if what is left of its lifted
policy at the age and the lock time of the transaction is met, all lock times in it being taken to
have come. -/
theorem lift_timely_tells_canSatisfy {m : Checked} {q : Policy} (lifted : m.fragment.lift = .ok q)
    {w : Wallet} (version : 2 ≤ w.transaction.version)
    (enabled : w.transaction.sequence &&& Transaction.disabledBit = 0) :
    m.fragment.canSatisfy w.satisfier = true ↔
      ((q.atAge w.transaction.sequence).atLockTime w.transaction.lockTime).isMet
        w.satisfier.timeless.meets = true := by
  have counted := Fragment.counted_policy m.typed
  rw [Fragment.eq_normalized_of_lift lifted, Wallet.isMet_timely version enabled counted.normalized,
    Policy.isMet_normalized w.satisfier.consistent_meets counted, Fragment.isMet_policy]

/-- `andor(c:pk(A),older(10),and_v(v:c:pk(B),after(500)))`. -/
def relayed : Checked where
  fragment := .andor (.wrap .check (.leaf (.pk (.named [0x41])))) (.leaf (.older 10))
    (.pair .andV (.wrap .verify (.wrap .check (.leaf (.pk (.named [0x42])))))
      (.leaf (.after 500)))
  facts := ⟨⟨⟨.B, .any, false, false⟩, ⟨.none, true, true⟩⟩,
    ⟨.safe, 79, false, 7, some 7, none⟩⟩
  typed := by rfl

/-- The policy of `relayed`. -/
def relayedPolicy : Policy :=
  .threshold 1 [.threshold 2 [.leaf (.key (.named [0x41])) [], .leaf (.older 10) []],
    .threshold 2 [.leaf (.key (.named [0x42])) [], .leaf (.after 500) []]]

/-- Signatures by these keys, for a transaction at height 600 whose input is 9 blocks old. -/
def signedEarly (keys : List Bytes) : Wallet :=
  ⟨⟨2, 600, 9⟩, keys.map fun key => (key, [7]), [], []⟩

/-- After 9 blocks the signature by `A` is of no use yet, and that by `B` is. -/
theorem lift_timely_tells_canSatisfy_relayed :
    relayed.fragment.lift = .ok relayedPolicy ∧
      (relayedPolicy.atAge 9).atLockTime 600 =
        .threshold 2 [.leaf (.key (.named [0x42])) [], .leaf (.after 500) []] ∧
      (relayed.fragment.canSatisfy (signedEarly [[0x42]]).satisfier = true ∧
        ((relayedPolicy.atAge 9).atLockTime 600).isMet
          (signedEarly [[0x42]]).satisfier.timeless.meets = true) ∧
      relayed.fragment.canSatisfy (signedEarly [[0x41]]).satisfier = false ∧
        ((relayedPolicy.atAge 9).atLockTime 600).isMet
          (signedEarly [[0x41]]).satisfier.timeless.meets = false := by
  have lifted : relayed.fragment.lift = .ok relayedPolicy := by rfl
  have enabled : (9 : UInt32) &&& Transaction.disabledBit = 0 := by decide
  have tells (keys : List Bytes) := lift_timely_tells_canSatisfy lifted
    (w := signedEarly keys) (UInt32.le_refl 2) enabled
  have young := not_congr (tells [[0x41]])
  rw [Bool.not_eq_true, Bool.not_eq_true] at young
  have can : relayed.fragment.canSatisfy (signedEarly [[0x42]]).satisfier = true := by decide +kernel
  have cannot : relayed.fragment.canSatisfy (signedEarly [[0x41]]).satisfier = false := by
    decide +kernel
  exact ⟨lifted, by rfl, ⟨can, (tells _).1 can⟩, cannot, young.1 cannot⟩

end Checked

end LockScript
