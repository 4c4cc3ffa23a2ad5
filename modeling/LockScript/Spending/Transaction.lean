/-!
What lock times see of the transaction that spends an output.

A relative lock time is compared with the sequence number of the input, an absolute one with the lock
time of the transaction. Both come in two units, and a lock time in one unit is never met by a
transaction that uses the other.
-/

namespace LockScript

/-- The part of a spending transaction that lock times depend on. -/
structure Transaction where
  version : UInt32
  /-- The lock time of the transaction. -/
  lockTime : UInt32
  /-- The sequence number of the input that spends the output. -/
  sequence : UInt32
  deriving DecidableEq, Repr

namespace Transaction

/-- The bit of a sequence number that turns relative lock times off. -/
def disabledBit : UInt32 := 0x80000000

/-- The bit of a sequence number that says that it counts in units of 512 seconds, not in blocks. -/
def secondsBit : UInt32 := 0x400000

/-- The bits of a sequence number that hold the count. -/
def countMask : UInt32 := 0xffff

/-- The sequence number of an input that no lock time applies to. -/
def finalSequence : UInt32 := 0xffffffff

/-- Absolute lock times from here on are times, those below are block heights. -/
def timeThreshold : UInt32 := 500000000

/-- Whether both lie on the same side of the threshold. -/
def sameUnit (threshold a b : UInt32) : Bool := decide (a < threshold) == decide (b < threshold)

/-- Whether the input meets the relative lock time. Of both values only the unit and the count
matter, and the input must not have relative lock times turned off. -/
def older (tx : Transaction) (lock : UInt32) : Bool :=
  if tx.version < 2 || tx.sequence &&& disabledBit != 0 then false
  else
    let given := tx.sequence &&& (secondsBit ||| countMask)
    let want := lock &&& (secondsBit ||| countMask)
    sameUnit secondsBit given want && want ≤ given

/-- Whether the transaction meets the absolute lock time. -/
def after (tx : Transaction) (lock : UInt32) : Bool :=
  tx.sequence != finalSequence && sameUnit timeThreshold tx.lockTime lock && lock ≤ tx.lockTime

end Transaction

end LockScript
