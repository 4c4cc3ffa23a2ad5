import LockScript.Proofs.Policy.NormalForm

/-!
What a normal form decides.

Meeting more conditions never hurts, so that two answers tell what a policy comes to: if it is not
met with every condition met that can be, it never is, and if it is met with no condition met that
need not be, it always is. A pass finds both out. What it leaves undecided is reduced, and a reduced
policy is met under the first answer and not under the second (`tells_of_settled`). All this is
about numbers that stay words; past the least word a policy that is always met may come out as
unsatisfiable.
-/

namespace LockScript

/-! ## The most and the least that can be met -/

namespace Condition

/-- Whether a condition can be met. -/
def isSatisfiable : Condition → Bool
  | .unsatisfiable => false
  | _ => true

/-- Whether a condition is met in any case. -/
def isCertain : Condition → Bool
  | .trivial => true
  | _ => false

theorem consistent_isSatisfiable : Consistent isSatisfiable := ⟨rfl, rfl⟩

theorem consistent_isCertain : Consistent isCertain := ⟨rfl, rfl⟩

variable {met : Condition → Bool} {c : Condition}

theorem Consistent.isSatisfiable (consistent : Consistent met) (holds : met c = true) :
    c.isSatisfiable = true := by
  cases c with
  | unsatisfiable =>
    rw [consistent.unsatisfiable] at holds
    cases holds
  | _ => rfl

theorem Consistent.of_isCertain (consistent : Consistent met) (certain : c.isCertain = true) :
    met c = true := by
  cases c with
  | trivial => exact consistent.trivial
  | _ => cases certain

end Condition

namespace Policy

/-- A policy is never met just if it is not met with every condition met that can be. -/
theorem never_isMet_iff {p : Policy} :
    (∀ met, Condition.Consistent met → p.isMet met = false) ↔
      p.isMet Condition.isSatisfiable = false := by
  constructor
  · intro never
    exact never _ Condition.consistent_isSatisfiable
  · intro fails met consistent
    rw [Bool.eq_false_iff] at fails ⊢
    exact fun holds => fails (isMet_mono (fun _ => consistent.isSatisfiable) holds)

/-- A policy is always met just if it is met with no condition met that need not be. -/
theorem always_isMet_iff {p : Policy} :
    (∀ met, Condition.Consistent met → p.isMet met = true) ↔
      p.isMet Condition.isCertain = true := by
  constructor
  · intro always
    exact always _ Condition.consistent_isCertain
  · intro holds met consistent
    exact isMet_mono (fun _ => consistent.of_isCertain) holds

/-! ## What is left of a policy -/

/-- Whether this is the condition that is never met. -/
def isUnsatisfiable : Policy → Bool
  | .leaf .unsatisfiable _ => true
  | _ => false

theorem isDecided_iff {p : Policy} :
    p.isDecided = true ↔ p.isTrivial = true ∨ p.isUnsatisfiable = true := by
  cases p with
  | leaf c attached => cases c <;> simp [isDecided, isTrivial, isUnsatisfiable]
  | threshold k branches => simp [isDecided, isTrivial, isUnsatisfiable]

/-- With every condition met that can be, all branches of a reduced threshold are met. -/
theorem Reduced.isMet_isSatisfiable {p : Policy} (reduced : p.Reduced) :
    p.isMet Condition.isSatisfiable = true := by
  induction reduced with
  | @leaf c attached undecided => cases c <;> first | rfl | cases undecided
  | @threshold k branches some enough several each ih =>
    have all : branches.countP (isMet Condition.isSatisfiable) = branches.length :=
      List.countP_eq_length.2 ih
    rw [isMet_threshold_iff, all]
    exact enough

/-- With no condition met that need not be, no branch of a reduced threshold is met. -/
theorem Reduced.isMet_isCertain {p : Policy} (reduced : p.Reduced) :
    p.isMet Condition.isCertain = false := by
  induction reduced with
  | @leaf c attached undecided => cases c <;> first | rfl | cases undecided
  | @threshold k branches some enough several each ih =>
    have none : branches.countP (isMet Condition.isCertain) = 0 :=
      List.countP_eq_zero.2 fun p inside => Bool.eq_false_iff.1 (ih p inside)
    rw [Bool.eq_false_iff, ne_eq, isMet_threshold_iff, none]
    omega

/-- A policy that is decided or reduced shows what it comes to. -/
theorem tells_of_settled {p : Policy} (settled : p.isDecided = true ∨ p.Reduced) :
    (p.isUnsatisfiable = true ↔ p.isMet Condition.isSatisfiable = false) ∧
      (p.isTrivial = true ↔ p.isMet Condition.isCertain = true) := by
  rcases settled with decided | reduced
  · cases p with
    | leaf c attached =>
      cases c with
      | trivial => simp [isUnsatisfiable, isTrivial, isMet, Condition.isSatisfiable,
          Condition.isCertain]
      | unsatisfiable => simp [isUnsatisfiable, isTrivial, isMet, Condition.isSatisfiable,
          Condition.isCertain]
      | _ => cases decided
    | threshold k branches => cases decided
  · have undecided := mt isDecided_iff.2 (Bool.eq_false_iff.1 reduced.isDecided)
    rw [reduced.isMet_isSatisfiable, reduced.isMet_isCertain]
    simpa [and_comm] using undecided

/-- A normal form is unsatisfiable as a whole or can be met. -/
theorem isUnsatisfiable_normalized {p : Policy} (counted : p.Counted) :
    p.normalized.isUnsatisfiable = !p.isMet Condition.isSatisfiable := by
  obtain ⟨never, -⟩ := tells_of_settled (isDecided_or_reduced_normalized p)
  rw [isMet_normalized Condition.consistent_isSatisfiable counted] at never
  rw [Bool.eq_iff_iff, never, Bool.not_eq_true']

/-- A normal form that is neither trivial nor unsatisfiable is reduced: a condition, or a threshold
in which at every depth one branch at least and no more than all are needed, there are two or more,
and none is trivial or unsatisfiable. It is unsatisfiable just if the policy is not met with every
condition met that can be, and trivial just if the policy is met with no condition met that need not
be, as long as no number runs below the least word. -/
theorem normalized_decides (p : Policy) :
    (p.normalized.isTrivial = true ∨ p.normalized.isUnsatisfiable = true ∨ p.normalized.Reduced) ∧
      (p.InRange →
        (p.normalized.isUnsatisfiable = true ↔ p.isMet Condition.isSatisfiable = false) ∧
        (p.normalized.isTrivial = true ↔ p.isMet Condition.isCertain = true) ∧
        (p.normalized.isUnsatisfiable = true ↔
          ∀ met, Condition.Consistent met → p.isMet met = false) ∧
        (p.normalized.isTrivial = true ↔
          ∀ met, Condition.Consistent met → p.isMet met = true)) := by
  have settled := isDecided_or_reduced_normalized p
  constructor
  · rw [isDecided_iff, or_assoc] at settled
    exact settled
  · intro inRange
    obtain ⟨never, always⟩ := tells_of_settled settled
    rw [isMet_normalized_of_inRange Condition.consistent_isSatisfiable inRange] at never
    rw [isMet_normalized_of_inRange Condition.consistent_isCertain inRange] at always
    exact ⟨never, always, never.trans never_isMet_iff.symm, always.trans always_isMet_iff.symm⟩

/-- So many out of three: a policy that asks for less than nothing, a key or nothing at all, and a
policy that asks for two lock times and has one. -/
def offer (k : Int) : Policy :=
  .threshold k [.threshold (-4) [trivial, .leaf (.older 3) []],
    .threshold 1 [unsatisfiable, .leaf (.key (.named (utf8 "A"))) []],
    .threshold 2 [.leaf (.after 9) []]]

/-- The first is always met and the last never is: one out of three asks for nothing, two ask for
the key and three cannot be met. -/
theorem normalized_decides_offer :
    ((offer 1).InRange ∧ (offer 1).normalized.isTrivial = true) ∧
      ((offer 2).InRange ∧ (offer 2).normalized.Reduced ∧
        (offer 2).isMet Condition.isSatisfiable = true ∧
        (offer 2).isMet Condition.isCertain = false) ∧
      (offer 3).InRange ∧ (offer 3).normalized.isUnsatisfiable = true := by
  have inRange (k : Int) (nonneg : 0 ≤ k) : (offer k).InRange := by
    refine .threshold (Int.le_trans ?_ (Int.sub_le_sub_right nonneg _)) ?_
    · decide
    · simp only [List.forall_mem_cons, List.not_mem_nil, false_implies, implies_true, and_true]
      refine ⟨.threshold (by decide) ?_, .threshold (by decide) ?_, .threshold (by decide) ?_⟩ <;>
        simp [InRange.leaf, trivial, unsatisfiable]
  obtain ⟨-, one⟩ := normalized_decides (offer 1)
  obtain ⟨shape, two⟩ := normalized_decides (offer 2)
  obtain ⟨-, three⟩ := normalized_decides (offer 3)
  have first := inRange 1 (by decide)
  have second := inRange 2 (by decide)
  have third := inRange 3 (by decide)
  have some : (offer 2).isMet Condition.isSatisfiable = true := by decide
  have none : (offer 2).isMet Condition.isCertain = false := by decide
  refine ⟨⟨first, (one first).2.1.2 (by decide)⟩, ⟨second, ?_, some, none⟩, third,
    (three third).1.2 (by decide)⟩
  rcases shape with isTrivial | isUnsatisfiable | reduced
  · rw [(two second).2.1, none] at isTrivial
    cases isTrivial
  · rw [(two second).1, some] at isUnsatisfiable
    cases isUnsatisfiable
  · exact reduced

/-- One more than the least word, with two branches to take off. -/
def overdrawn : Policy := .threshold (-0x7FFFFFFFFFFFFFFF) [trivial, trivial]

/-- It is met whatever the answers are, but taking off the second branch passes the least word, and
the normal form is unsatisfiable. -/
theorem normalized_overdrawn :
    overdrawn.normalized.isUnsatisfiable = true ∧ overdrawn.normalized.isTrivial = false ∧
      overdrawn.isMet Condition.isSatisfiable = true ∧
      overdrawn.isMet Condition.isCertain = true := by
  obtain ⟨never, always⟩ := @normalized_of_underrun (-0x7FFFFFFFFFFFFFFF) [trivial, trivial]
    (by decide) (by decide) (by decide) (by decide)
  have same : overdrawn.normalized = unsatisfiable := never
  rw [same]
  exact ⟨rfl, rfl, always _, always _⟩

end Policy

end LockScript
