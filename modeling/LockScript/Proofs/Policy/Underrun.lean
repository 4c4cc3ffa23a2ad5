import LockScript.Proofs.Policy.Evaluation

/-!
Thresholds that ask for a negative number of branches.

Such a threshold is always met. Its normal form takes one off the number for each trivial branch, and
the number is a word: as long as it stays one (`InRange`), the normal form means what the policy
means, whatever the numbers of its thresholds are. Below the least word the count comes out among the
greatest, and a policy that asks for nothing has a normal form that is never met
(`normalized_of_underrun`).
-/

namespace LockScript.Policy

variable {met : Condition → Bool} {k : Int} {branches : List Policy}

/-- Whether this is the condition that is always met. -/
def isTrivial : Policy → Bool
  | .leaf .trivial _ => true
  | _ => false

/-- The number of branches whose normal form is trivial. -/
def trivialBranches (branches : List Policy) : Nat :=
  branches.countP fun p => p.normalized.isTrivial

/-- No threshold comes to need a number of branches below the least word when its trivial branches
are taken off. -/
inductive InRange : Policy → Prop
  | leaf (c : Condition) (attached : List Policy) : InRange (.leaf c attached)
  | threshold {k : Int} {branches : List Policy}
      (room : -0x8000000000000000 ≤ k - trivialBranches branches)
      (each : ∀ p ∈ branches, InRange p) : InRange (.threshold k branches)

/-! ## What a negative number changes by -/

/-- In a threshold of neither kind only trivial branches change the number that is needed. -/
theorem merged_neither_fst (p : Policy) :
    (merged false false p).1 = if p.isTrivial then -1 else 0 := by
  cases p with
  | leaf c attached => cases c <;> rfl
  | threshold k branches => simp [merged, isTrivial]

theorem change_of_neg (negative : k < 0) (branches : List Policy) :
    change k branches = -trivialBranches branches := by
  have notAnd : ¬ k = branches.length := by omega
  have notOr : ¬ k = 1 := by omega
  rw [change, decide_eq_false notAnd, decide_eq_false notOr, trivialBranches]
  clear notAnd
  induction branches with
  | nil => rfl
  | cons p rest ih =>
    rw [List.map_cons, List.map_cons, List.map_cons, List.foldr_cons, ih, merged_neither_fst,
      List.countP_cons]
    split <;> omega

/-- The number that is needed is exact as long as it is a word. -/
theorem stillNeeded_change (room : -0x8000000000000000 ≤ k - trivialBranches branches) :
    stillNeeded k (change k branches) = k + change k branches := by
  by_cases negative : k < 0
  · rw [change_of_neg negative, stillNeeded, if_pos negative]
    exact Int.bmod_eq_of_le (by omega) (by omega)
  · exact stillNeeded_of_nonneg (Int.not_lt.1 negative) _

/-! ## Normal forms -/

/-- The normal form of a policy means the same, for all answers to its conditions, if no threshold
runs below the least word. -/
theorem isMet_normalized_of_inRange (consistent : Condition.Consistent met) {p : Policy}
    (inRange : p.InRange) : p.normalized.isMet met = p.isMet met := by
  induction inRange with
  | leaf c attached => rfl
  | threshold room _ ih =>
    exact isMet_normalized_threshold consistent (stillNeeded_change room) ih

/-- Two out of three: a policy that asks for nothing, either of two lock times, and a policy that asks
for more than there is. -/
def lenient : Policy :=
  .threshold 2 [.threshold (-0x7FFFFFFFFFFFFFFF) [trivial, .leaf (.older 3) []],
    .threshold 1 [.leaf (.after 7) [], .leaf (.older 5) []], .threshold 2 [.leaf (.after 9) []]]

theorem isMet_normalized_of_inRange_lenient :
    lenient.InRange ∧
      lenient.normalized = .threshold 1 [.leaf (.after 7) [], .leaf (.older 5) []] ∧
      lenient.normalized.isMet (· = .trivial) = lenient.isMet (· = .trivial) := by
  have inRange : lenient.InRange := by
    refine .threshold (by decide) ?_
    simp only [List.forall_mem_cons, List.not_mem_nil, false_implies, implies_true, and_true]
    refine ⟨.threshold (by decide) ?_, .threshold (by decide) ?_, .threshold (by decide) ?_⟩ <;>
      simp [InRange.leaf, trivial]
  exact ⟨inRange, by rfl, isMet_normalized_of_inRange ⟨rfl, rfl⟩ inRange⟩

/-! ## Below the least word -/

/-- A word that falls below the least one comes out positive. -/
theorem stillNeeded_of_underrun {k change : Int} (negative : k < 0)
    (under : k + change < -0x8000000000000000) (near : -0x18000000000000000 ≤ k + change) :
    stillNeeded k change = k + change + 0x10000000000000000 := by
  rw [stillNeeded, if_pos negative, ← Int.add_bmod_right]
  exact Int.bmod_eq_of_le (by omega) (by omega)

theorem length_merged_neither_le (p : Policy) : (merged false false p).2.length ≤ 1 := by
  cases p with
  | leaf c attached => cases c <;> simp [merged]
  | threshold k branches => simp [merged]

/-- In a threshold of neither kind no branch gives way to more than one. -/
theorem length_flatMap_merged_le (ps : List Policy) :
    ((ps.map (merged false false)).flatMap (·.2)).length ≤ ps.length := by
  induction ps with
  | nil => exact Nat.le_refl 0
  | cons p rest ih =>
    have head := length_merged_neither_le p
    simp only [List.map_cons, List.flatMap_cons, List.length_append, List.length_cons]
    omega

/-- Below the least word the number that is needed is out of reach, although the policy asks for
nothing. -/
theorem normalized_of_underrun (word : -0x8000000000000000 ≤ k) (negative : k < 0)
    (under : k - trivialBranches branches < -0x8000000000000000)
    (few : branches.length < 0x4000000000000000) :
    (threshold k branches).normalized = unsatisfiable ∧
      ∀ met, (threshold k branches).isMet met = true := by
  have notAnd : ¬ k = branches.length := by omega
  have notOr : ¬ k = 1 := by omega
  have some : trivialBranches branches ≤ branches.length := List.countP_le_length
  have kept := length_flatMap_merged_le (branches.map normalized)
  have changed := change_of_neg negative branches
  rw [change, decide_eq_false notAnd, decide_eq_false notOr] at changed
  rw [List.length_map] at kept
  constructor
  · rw [normalized, normalizedAll_eq_map, decide_eq_false notAnd, decide_eq_false notOr]
    simp only [changed]
    rw [stillNeeded_of_underrun negative (by omega) (by omega)]
    exact atLeast_of_lt (by omega)
  · intro met
    rw [isMet_threshold_iff]
    omega

/-- `thresh(-2^63,TRIVIAL)` asks for nothing, but its normal form is never met. -/
theorem isMet_normalized_underrun :
    ¬ ∀ met, Condition.Consistent met → ∀ p : Policy, p.normalized.isMet met = p.isMet met := by
  intro same
  obtain ⟨never, always⟩ := @normalized_of_underrun (-0x8000000000000000) [trivial]
    (by decide) (by decide) (by decide) (by decide)
  have both := same (· = .trivial) ⟨rfl, rfl⟩ (.threshold (-0x8000000000000000) [trivial])
  rw [never, always] at both
  cases both

end LockScript.Policy
