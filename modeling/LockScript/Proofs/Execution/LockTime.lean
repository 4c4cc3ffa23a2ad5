import LockScript.Proofs.Execution.Witness
import LockScript.Proofs.Policy.TimeLock
import Mathlib.Tactic.MkIffOfInductiveProp

/-!
Lock times and the opcodes that check them.

CHECKSEQUENCEVERIFY and CHECKLOCKTIMEVERIFY hold their operand against the transaction that spends
the output. Their rules are given here bit by bit, as `SequencePasses` and `LockTimeReached`, and a
machine in the `environment` of a transaction goes by them. A transaction meets an absolute lock
time just if the opcode lets it pass. It meets a relative one just if the input has reached it
(`Transaction.older_iff`). This is the rule of the opcode but for operands with bit 31 set, which
the opcode lets pass whatever the transaction is.
-/

namespace LockScript

namespace Transaction

/-! ## The rules of the opcodes -/

/-- An input that has come to the age of a relative lock time: the version of the transaction gives
a meaning to sequence numbers, bit 31 does not turn them off, bit 22 has the same unit for both, and
the low 16 bits of the lock time are no more than those of the input. -/
@[mk_iff] structure SequenceReached (tx : Transaction) (n : Nat) : Prop where
  version : 2 ≤ tx.version.toNat
  enabled : tx.sequence.toNat.testBit 31 = false
  unit : n.testBit 22 = tx.sequence.toNat.testBit 22
  count : n % 0x10000 ≤ tx.sequence.toNat % 0x10000

instance (tx : Transaction) (n : Nat) : Decidable (tx.SequenceReached n) :=
  decidable_of_iff' _ (sequenceReached_iff tx n)

/-- What CHECKSEQUENCEVERIFY lets pass: anything with bit 31 set, and what the input has reached. -/
def SequencePasses (tx : Transaction) (n : Nat) : Prop := n.testBit 31 = true ∨ tx.SequenceReached n

instance (tx : Transaction) (n : Nat) : Decidable (tx.SequencePasses n) :=
  inferInstanceAs (Decidable (_ ∨ _))

/-- What CHECKLOCKTIMEVERIFY lets pass: the input is not final, the lock time and that of the
transaction are both heights or both times, and the one is no more than the other. -/
@[mk_iff] structure LockTimeReached (tx : Transaction) (n : Nat) : Prop where
  notFinal : tx.sequence.toNat ≠ 0xffffffff
  unit : n < 500000000 ↔ tx.lockTime.toNat < 500000000
  reached : n ≤ tx.lockTime.toNat

instance (tx : Transaction) (n : Nat) : Decidable (tx.LockTimeReached n) :=
  decidable_of_iff' _ (lockTimeReached_iff tx n)

/-- The environment of the scripts of an input, with lock times as the opcodes check them. -/
def environment (tx : Transaction) (env : Environment) : Environment :=
  { env with
    older := fun n => tx.SequencePasses n
    after := fun n => tx.LockTimeReached n }

/-! ## Bits of words -/

theorem and_bit_ne_zero {x bit : UInt32} {i : Nat} (single : bit.toNat = 1 <<< i) :
    (x &&& bit != 0) = x.toNat.testBit i := by
  have value : (x &&& bit).toNat = (x.toNat.testBit i).toNat * 1 <<< i := by
    rw [UInt32.toNat_and, single, Nat.one_shiftLeft]
    exact Nat.and_two_pow x.toNat i
  have zero : x &&& bit = 0 ↔ (x &&& bit).toNat = 0 := UInt32.toNat_inj.symm
  have positive : 1 <<< i ≠ 0 := by
    rw [Nat.one_shiftLeft]
    exact Nat.ne_of_gt (Nat.two_pow_pos i)
  rw [Bool.eq_iff_iff, bne_iff_ne, Ne, zero, value]
  cases x.toNat.testBit i <;> simp [positive]

theorem and_disabledBit_ne_zero (x : UInt32) : (x &&& disabledBit != 0) = x.toNat.testBit 31 :=
  and_bit_ne_zero rfl

theorem toNat_and_countMask (x : UInt32) : (x &&& countMask).toNat = x.toNat % 0x10000 := by
  rw [UInt32.toNat_and]
  exact Nat.and_two_pow_sub_one_eq_mod x.toNat 16

/-! ## Lock times that a transaction meets -/

variable {tx : Transaction}

open Condition (relativeLockMet isRelativeTime)

theorem isRelativeTime_eq_testBit (x : UInt32) : isRelativeTime x = x.toNat.testBit 22 :=
  and_bit_ne_zero rfl

theorem relativeLockMet_iff {sequence n : UInt32} :
    relativeLockMet sequence n = true ↔
      n.toNat.testBit 22 = sequence.toNat.testBit 22 ∧
        n.toNat % 0x10000 ≤ sequence.toNat % 0x10000 := by
  rw [relativeLockMet, Bool.and_eq_true, beq_iff_eq, isRelativeTime_eq_testBit,
    isRelativeTime_eq_testBit, decide_eq_true_iff, UInt32.le_iff_toNat_le, toNat_and_countMask,
    toNat_and_countMask]

/-- No relative lock time is met by an old transaction or by an input that turns them off. -/
theorem older_eq_false (off : tx.version < 2 ∨ tx.sequence.toNat.testBit 31 = true) (n : UInt32) :
    tx.older n = false := by
  rw [older, and_disabledBit_ne_zero, if_pos]
  rw [Bool.or_eq_true, decide_eq_true_iff]
  exact off

/-- The relative lock times that are met are those that the input has reached. -/
theorem older_iff (tx : Transaction) (n : UInt32) :
    tx.older n = true ↔ tx.SequenceReached n.toNat := by
  by_cases off : tx.version < 2 ∨ tx.sequence.toNat.testBit 31 = true
  · rw [older_eq_false off]
    refine ⟨nofun, fun reached => ?_⟩
    rcases off with old | disabled
    · exact absurd reached.version (Nat.not_le.2 (UInt32.lt_iff_toNat_lt.1 old))
    · exact absurd disabled (Bool.eq_false_iff.1 reached.enabled)
  · obtain ⟨current, on⟩ := not_or.1 off
    have version : 2 ≤ tx.version := UInt32.not_lt.1 current
    have least : 2 ≤ tx.version.toNat := UInt32.le_iff_toNat_le.1 version
    have enabled : tx.sequence.toNat.testBit 31 = false := Bool.eq_false_iff.2 on
    have cleared : tx.sequence &&& disabledBit = 0 := by
      rw [← and_disabledBit_ne_zero] at enabled
      exact bne_eq_false_iff_eq.1 enabled
    rw [← Condition.relativeLockMet_eq_older version cleared, relativeLockMet_iff,
      sequenceReached_iff]
    simp only [least, enabled, true_and]

/-- The absolute lock times that are met are those that the opcode lets pass. -/
theorem after_iff (tx : Transaction) (n : UInt32) :
    tx.after n = true ↔ tx.LockTimeReached n.toNat := by
  have final : tx.sequence != finalSequence ↔ tx.sequence.toNat ≠ 0xffffffff := by
    rw [bne_iff_ne, Ne, ← UInt32.toNat_inj]
    rfl
  have height (x : UInt32) : x < timeThreshold ↔ x.toNat < 500000000 := UInt32.lt_iff_toNat_lt
  have same : sameUnit timeThreshold tx.lockTime n = true ↔
      (n.toNat < 500000000 ↔ tx.lockTime.toNat < 500000000) := by
    rw [sameUnit, beq_iff_eq, decide_eq_decide, height, height]
    exact Iff.comm
  rw [after, Bool.and_eq_true, Bool.and_eq_true, final, same, decide_eq_true_iff,
    UInt32.le_iff_toNat_le, lockTimeReached_iff, and_assoc]

end Transaction

/-! ## Scripts that check lock times -/

namespace Machine

/-- An opcode that checks lock times leaves its operand if it lets it pass. -/
theorem checkLock_word (passes : Nat → Bool) (n : UInt32) (st : Stack) :
    checkLock passes (ScriptNumber.encode n.toNat :: st)
      = if passes n.toNat then some (ScriptNumber.encode n.toNat :: st) else none := by
  have read := number?_of_length_le (ScriptNumber.length_encode_le n.toNat_lt)
  simp only [checkLock, read, Int.natCast_nonneg, Int.toNat_natCast, true_and]

/-- A number and an opcode that checks it: the script goes on just if the number passes. -/
theorem run_lock {env : Environment} {o : Opcode} {passes : Nat → Bool} (plain : isPlain o = true)
    (checks : ∀ st alt, perform env o st alt = (checkLock passes st).map fun st => (st, alt))
    (n : UInt32) (st : Stack) :
    run env [.number n.toNat, .op o] (start st)
      = if passes n.toNat then some (start (ScriptNumber.encode n.toNat :: st)) else none := by
  have pushed : step env (start st) (.number n.toNat)
      = some (start (ScriptNumber.encode n.toNat :: st)) := rfl
  have running : isRunning (start (ScriptNumber.encode n.toNat :: st)).inside = true := rfl
  rw [run_cons, pushed, Option.bind_some, run_cons, step_plain plain, if_pos running, checks]
  simp only [start, checkLock_word]
  cases passes n.toNat <;> rfl

theorem run_older (env : Environment) (n : UInt32) (st : Stack) :
    run env ((Leaf.older n).instructions false) (start st)
      = if env.older n.toNat then some (start (ScriptNumber.encode n.toNat :: st)) else none :=
  run_lock rfl (fun _ _ => rfl) n st

theorem run_after (env : Environment) (n : UInt32) (st : Stack) :
    run env ((Leaf.after n).instructions false) (start st)
      = if env.after n.toNat then some (start (ScriptNumber.encode n.toNat :: st)) else none :=
  run_lock rfl (fun _ _ => rfl) n st

end Machine

namespace Transaction

open Machine

/-- The script of `older(n)` runs through just if the rules let `n` pass. -/
theorem run_older_iff (tx : Transaction) (env : Environment) (n : UInt32) (st : Stack) :
    (run (tx.environment env) ((Leaf.older n).instructions false) (start st)).isSome = true ↔
      tx.SequencePasses n.toNat := by
  rw [run_older, environment]
  by_cases passes : tx.SequencePasses n.toNat <;> simp [passes]

theorem run_after_iff (tx : Transaction) (env : Environment) (n : UInt32) (st : Stack) :
    (run (tx.environment env) ((Leaf.after n).instructions false) (start st)).isSome = true ↔
      tx.LockTimeReached n.toNat := by
  rw [run_after, environment]
  by_cases passes : tx.LockTimeReached n.toNat <;> simp [passes]

/-- A transaction meets an absolute lock time just if CHECKLOCKTIMEVERIFY lets it pass. It meets a
relative lock time just if the input has reached it, and CHECKSEQUENCEVERIFY lets pass what is met,
and besides that any number with bit 31 set. So the two agree on all numbers in which this bit is
not set. -/
theorem met_iff_passes (tx : Transaction) (env : Environment) (n : UInt32) (st : Stack) :
    (tx.after n = true ↔
      (run (tx.environment env) ((Leaf.after n).instructions false) (start st)).isSome = true) ∧
    (tx.older n = true ↔ tx.SequenceReached n.toNat) ∧
    ((run (tx.environment env) ((Leaf.older n).instructions false) (start st)).isSome = true ↔
      n.toNat.testBit 31 = true ∨ tx.older n = true) ∧
    (n.toNat.testBit 31 = false →
      (tx.older n = true ↔ (run (tx.environment env) ((Leaf.older n).instructions false)
        (start st)).isSome = true)) := by
  have passes : (run (tx.environment env) ((Leaf.older n).instructions false) (start st)).isSome
      = true ↔ n.toNat.testBit 31 = true ∨ tx.older n = true := by
    rw [run_older_iff, older_iff, SequencePasses]
  refine ⟨?_, tx.older_iff n, passes, fun clear => ?_⟩
  · rw [run_after_iff, after_iff]
  · rw [passes, clear]
    simp

/-- Version 2, at an age of 20 units of 512 seconds. -/
def rested : Transaction := ⟨2, 0, 0x400014⟩

theorem met_iff_passes_rested :
    (0x40000a : UInt32).toNat.testBit 31 = false ∧ rested.older 0x40000a = true ∧
    ∀ env st, (run (rested.environment env) ((Leaf.older 0x40000a).instructions false)
      (start st)).isSome = true := by
  have clear : (0x40000a : UInt32).toNat.testBit 31 = false := by decide
  have met : rested.older 0x40000a = true := by decide
  refine ⟨clear, met, fun env st => ?_⟩
  obtain ⟨-, -, -, agree⟩ := met_iff_passes rested env 0x40000a st
  exact (agree clear).1 met

/-- Version 1, for which sequence numbers have no meaning. -/
def outdated : Transaction := ⟨1, 0, 0⟩

/-- A lock time with bit 31 set is not met, but nothing keeps the script from going on. -/
theorem older_outdated :
    outdated.older 0x80000000 = false ∧
    ∀ env st, (run (outdated.environment env) ((Leaf.older 0x80000000).instructions false)
      (start st)).isSome = true := by
  refine ⟨by decide, fun env st => ?_⟩
  rw [run_older_iff]
  exact .inl (by decide)

end Transaction

end LockScript
