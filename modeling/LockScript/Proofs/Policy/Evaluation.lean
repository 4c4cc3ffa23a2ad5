import LockScript.Policy.Normal

/-!
What a policy means.

A policy is met or not by an answer to each of its conditions. Normal forms have the same meaning as
the policies they come from (`isMet_normalized`): within a threshold each normalized branch, with
what it takes off the number of branches needed, counts for as much as it did before. How much that
is depends on the kind of threshold. In a conjunction a branch that is met counts for one and any
other for no more than zero, in a disjunction a branch that is met counts for one at least and any
other for zero, and both come to the same.

Thresholds are counted from zero on. A negative one asks for nothing, but its normal form need not;
when it does is a matter of its own (`Proofs/Policy/Underrun`).
-/

namespace LockScript

/-- Answers under which what is always met is met, and what is never met is not. -/
structure Condition.Consistent (met : Condition → Bool) : Prop where
  trivial : met .trivial = true
  unsatisfiable : met .unsatisfiable = false

namespace Policy

mutual

/-- Whether a policy is met, given which conditions are. -/
def isMet (met : Condition → Bool) : Policy → Bool
  | .leaf c _ => met c
  | .threshold k branches => k ≤ countMet met branches

/-- How many of the policies are met. -/
def countMet (met : Condition → Bool) : List Policy → Nat
  | [] => 0
  | p :: rest => (if p.isMet met then 1 else 0) + countMet met rest

end

/-- No threshold asks for a negative number of branches. -/
inductive Counted : Policy → Prop
  | leaf (c : Condition) (attached : List Policy) : Counted (.leaf c attached)
  | threshold {k : Int} {branches : List Policy} (nonneg : 0 ≤ k)
      (each : ∀ p ∈ branches, Counted p) : Counted (.threshold k branches)

variable {met : Condition → Bool}

/-! ## Counting -/

theorem countMet_eq_countP (ps : List Policy) : countMet met ps = ps.countP (isMet met) := by
  induction ps with
  | nil => rfl
  | cons p rest ih => simp [countMet, ih, List.countP_cons, Nat.add_comm]

theorem isMet_threshold_iff {k : Int} {branches : List Policy} :
    (threshold k branches).isMet met = true ↔ k ≤ branches.countP (isMet met) := by
  rw [isMet, decide_eq_true_eq, countMet_eq_countP]

theorem isMet_atLeast_iff (consistent : Condition.Consistent met) {k : Int}
    {branches : List Policy} :
    (atLeast k branches).isMet met = true ↔ k ≤ branches.countP (isMet met) := by
  have most := List.countP_le_length (p := isMet met) (l := branches)
  unfold atLeast
  split
  · next none =>
    have enough : k ≤ branches.countP (isMet met) := by omega
    simp [trivial, isMet, consistent.trivial, enough]
  · split
    · next many =>
      have short : ¬ k ≤ branches.countP (isMet met) := by omega
      simp [unsatisfiable, isMet, consistent.unsatisfiable, short]
    · next some few =>
      split
      · next p =>
        rw [List.length_singleton] at few
        rw [List.countP_singleton]
        split
        · next holds =>
          simp only [holds, true_iff]
          omega
        · next fails =>
          simp only [fails, Bool.false_eq_true, false_iff]
          omega
      · exact isMet_threshold_iff

theorem atLeast_of_lt {k : Int} {ps : List Policy} (short : ps.length < k) :
    atLeast k ps = unsatisfiable := by
  unfold atLeast
  rw [if_neg (by omega), if_pos short]

theorem isMet_both (p q : Policy) :
    (threshold 2 [p, q]).isMet met = (p.isMet met && q.isMet met) := by
  rw [Bool.eq_iff_iff, isMet_threshold_iff, List.countP_cons, List.countP_singleton]
  cases p.isMet met <;> cases q.isMet met <;> decide

theorem isMet_either (p q : Policy) :
    (threshold 1 [p, q]).isMet met = (p.isMet met || q.isMet met) := by
  rw [Bool.eq_iff_iff, isMet_threshold_iff, List.countP_cons, List.countP_singleton]
  cases p.isMet met <;> cases q.isMet met <;> decide

/-- More conditions that are met never hurt. -/
theorem isMet_mono {met' : Condition → Bool} (more : ∀ c, met c = true → met' c = true) {p : Policy}
    (holds : p.isMet met = true) : p.isMet met' = true := by
  induction p with
  | leaf c attached => exact more c holds
  | threshold k branches ih =>
    rw [isMet_threshold_iff] at holds ⊢
    have grows := List.countP_mono_left ih
    omega

/-! ## What a branch counts for -/

/-- What a normalized branch counts for in a threshold: the branches that take its place and are
met, less the change to the number needed. -/
def worth (met : Condition → Bool) (isAnd isOr : Bool) (p : Policy) : Int :=
  (merged isAnd isOr p).2.countP (isMet met) - (merged isAnd isOr p).1

/-- A branch counts for one if it is met and for zero if not, unless it gives way to its own
branches. A conjunction that does may count for less than zero, a disjunction for more than one. -/
theorem worth_cases (consistent : Condition.Consistent met) (isAnd isOr : Bool) (p : Policy) :
    (worth met isAnd isOr p = if p.isMet met then 1 else 0) ∨
      (1 ≤ worth met isAnd isOr p ↔ p.isMet met = true) ∧
        (isAnd = true ∧ worth met isAnd isOr p ≤ 1 ∨ isOr = true ∧ 0 ≤ worth met isAnd isOr p) := by
  have kept {q : Policy} (same : merged isAnd isOr q = (0, [q])) :
      worth met isAnd isOr q = if q.isMet met then 1 else 0 := by
    rw [worth, same, List.countP_singleton]
    split <;> rfl
  cases p with
  | leaf c attached =>
    left
    cases c with
    | trivial => simp [worth, merged, isMet, consistent.trivial]
    | unsatisfiable => simp [worth, merged, isMet, consistent.unsatisfiable]
    | _ => exact kept rfl
  | threshold k branches =>
    have most := List.countP_le_length (p := isMet met) (l := branches)
    by_cases conjunction : isAnd = true ∧ k = branches.length
    · right
      have shape : merged isAnd isOr (threshold k branches) = (k - 1, branches) :=
        if_pos conjunction
      rw [isMet_threshold_iff, worth, shape]
      dsimp only
      exact ⟨by omega, .inl ⟨conjunction.1, by omega⟩⟩
    · by_cases disjunction : isOr = true ∧ k = 1
      · right
        have shape : merged isAnd isOr (threshold k branches) = (0, branches) :=
          (if_neg conjunction).trans (if_pos disjunction)
        rw [isMet_threshold_iff, worth, shape]
        dsimp only
        exact ⟨by omega, .inr ⟨disjunction.1, by omega⟩⟩
      · left
        exact kept ((if_neg conjunction).trans (if_neg disjunction))

/-- What several branches count for together. -/
def totalWorth (met : Condition → Bool) (isAnd isOr : Bool) (ps : List Policy) : Int :=
  (ps.map (worth met isAnd isOr)).foldr (· + ·) 0

theorem totalWorth_eq (isAnd isOr : Bool) (ps : List Policy) :
    totalWorth met isAnd isOr ps
      = ((ps.map (merged isAnd isOr)).flatMap (·.2)).countP (isMet met)
        - ((ps.map (merged isAnd isOr)).map (·.1)).foldr (· + ·) 0 := by
  induction ps with
  | nil => rfl
  | cons p rest ih =>
    unfold totalWorth at ih ⊢
    simp only [List.map_cons, List.foldr_cons, List.flatMap_cons, List.countP_append, worth] at ih ⊢
    omega

section Totals

variable (consistent : Condition.Consistent met)
include consistent

/-- In a threshold of neither kind the branches that are met are counted. -/
theorem totalWorth_neither (ps : List Policy) :
    totalWorth met false false ps = ps.countP (isMet met) := by
  induction ps with
  | nil => rfl
  | cons p rest ih =>
    unfold totalWorth at ih ⊢
    have exactly : worth met false false p = if p.isMet met then 1 else 0 := by
      rcases worth_cases consistent false false p with exactly | ⟨-, ⟨⟨⟩, -⟩ | ⟨⟨⟩, -⟩⟩
      exact exactly
    rw [List.map_cons, List.foldr_cons, ih, exactly, List.countP_cons]
    split <;> omega

/-- In a conjunction all branches are met if together they count for as many as there are. -/
theorem length_le_totalWorth_iff (ps : List Policy) :
    totalWorth met true false ps ≤ ps.length ∧
      (ps.length ≤ totalWorth met true false ps ↔ ps.length ≤ ps.countP (isMet met)) := by
  induction ps with
  | nil => simp [totalWorth]
  | cons p rest ih =>
    have most := List.countP_le_length (p := isMet met) (l := rest)
    unfold totalWorth at ih ⊢
    rw [List.map_cons, List.foldr_cons, List.countP_cons, List.length_cons]
    rcases worth_cases consistent true false p with exactly | ⟨positive, ⟨-, most'⟩ | ⟨⟨⟩, -⟩⟩
    · rw [exactly]
      split <;> omega
    · cases holds : p.isMet met with
      | true =>
        simp only [holds, iff_true, if_true] at positive ⊢
        omega
      | false =>
        simp only [holds, Bool.false_eq_true, iff_false, if_false] at positive ⊢
        omega

/-- In a disjunction a branch is met if together they count for one at least. -/
theorem one_le_totalWorth_iff (ps : List Policy) :
    0 ≤ totalWorth met false true ps ∧
      (1 ≤ totalWorth met false true ps ↔ 1 ≤ ps.countP (isMet met)) := by
  induction ps with
  | nil => simp [totalWorth]
  | cons p rest ih =>
    unfold totalWorth at ih ⊢
    rw [List.map_cons, List.foldr_cons, List.countP_cons]
    rcases worth_cases consistent false true p with exactly | ⟨positive, ⟨⟨⟩, -⟩ | ⟨-, least⟩⟩
    · rw [exactly]
      split <;> omega
    · cases holds : p.isMet met with
      | true =>
        simp only [holds, iff_true, if_true] at positive ⊢
        omega
      | false =>
        simp only [holds, Bool.false_eq_true, iff_false, if_false] at positive ⊢
        omega

/-- The worth of the branches tells whether enough of them are met, whatever kind of threshold they
are in. -/
theorem le_totalWorth_iff (k : Int) (ps : List Policy) :
    k ≤ totalWorth met (k = ps.length) (k = 1) ps ↔ k ≤ ps.countP (isMet met) := by
  by_cases all : k = ps.length
  · by_cases single : k = 1
    · -- a single branch, which may give way to its own branches in either way
      have alone : ps.length = 1 := by omega
      rcases List.length_eq_one_iff.1 alone with ⟨p, rfl⟩
      rw [decide_eq_true all, decide_eq_true single, single]
      have positive : 1 ≤ worth met true true p ↔ p.isMet met = true := by
        rcases worth_cases consistent true true p with exactly | ⟨positive, -⟩
        · rw [exactly]
          split <;> simp_all
        · exact positive
      simp only [totalWorth, List.map_cons, List.map_nil, List.foldr_cons, List.foldr_nil,
        Int.add_zero, positive, List.countP_singleton]
      split <;> simp_all
    · rw [decide_eq_true all, decide_eq_false single, all]
      have whole := (length_le_totalWorth_iff consistent ps).2
      omega
  · by_cases single : k = 1
    · rw [decide_eq_false all, decide_eq_true single, single]
      have one := (one_le_totalWorth_iff consistent ps).2
      omega
    · rw [decide_eq_false all, decide_eq_false single, totalWorth_neither consistent]

end Totals

/-! ## Normal forms -/

theorem stillNeeded_of_nonneg {k : Int} (nonneg : 0 ≤ k) (change : Int) :
    stillNeeded k change = k + change :=
  if_neg (Int.not_lt.2 nonneg)

/-- The change to the number of branches that a threshold needs, over all its normalized
branches. -/
def change (k : Int) (branches : List Policy) : Int :=
  (((branches.map normalized).map (merged (k = branches.length) (k = 1))).map (·.1)).foldr (· + ·) 0

/-- The normal form of a threshold means the same, if those of its branches do and the number of
branches needed is still counted exactly. -/
theorem isMet_normalized_threshold (consistent : Condition.Consistent met) {k : Int}
    {branches : List Policy} (exactly : stillNeeded k (change k branches) = k + change k branches)
    (each : ∀ p ∈ branches, p.normalized.isMet met = p.isMet met) :
    (threshold k branches).normalized.isMet met = (threshold k branches).isMet met := by
  have same : (branches.map normalized).countP (isMet met) = branches.countP (isMet met) := by
    rw [List.countP_map]
    apply List.countP_congr
    intro p member
    rw [Function.comp_apply, each p member]
  have worth := le_totalWorth_iff consistent k (branches.map normalized)
  rw [same, List.length_map, totalWorth_eq] at worth
  rw [change] at exactly
  rw [Bool.eq_iff_iff, normalized, normalizedAll_eq_map, isMet_atLeast_iff consistent, exactly,
    isMet_threshold_iff, ← worth]
  omega

/-- The normal form of a policy means the same. -/
theorem isMet_normalized (consistent : Condition.Consistent met) {p : Policy}
    (counted : p.Counted) : p.normalized.isMet met = p.isMet met := by
  induction counted with
  | leaf c attached => rfl
  | threshold nonneg _ ih =>
    exact isMet_normalized_threshold consistent (stillNeeded_of_nonneg nonneg _) ih

theorem Counted.merged {p : Policy} (counted : p.Counted) (isAnd isOr : Bool) :
    ∀ q ∈ (merged isAnd isOr p).2, q.Counted := by
  intro q member
  cases counted with
  | leaf c attached =>
    cases c with
    | trivial => cases member
    | unsatisfiable => cases member
    | _ =>
      rw [List.mem_singleton.1 member]
      exact .leaf _ _
  | threshold nonneg each =>
    rw [Policy.merged] at member
    split at member
    · exact each q member
    · split at member
      · exact each q member
      · rw [List.mem_singleton.1 member]
        exact .threshold nonneg each

theorem counted_atLeast {k : Int} {branches : List Policy} (each : ∀ p ∈ branches, p.Counted) :
    (atLeast k branches).Counted := by
  unfold atLeast
  split
  · exact .leaf _ _
  · next some =>
    split
    · exact .leaf _ _
    · split
      · exact each _ List.mem_cons_self
      · exact .threshold (by omega) each

/-- The thresholds of a normal form are counted from zero on as well. -/
theorem Counted.normalized {p : Policy} (counted : p.Counted) : p.normalized.Counted := by
  induction counted with
  | leaf c attached => exact .leaf c attached
  | threshold nonneg each ih =>
    rw [Policy.normalized, normalizedAll_eq_map]
    apply counted_atLeast
    intro q member
    rcases List.mem_flatMap.1 member with ⟨part, among, replaces⟩
    rcases List.mem_map.1 among with ⟨n, normal, rfl⟩
    rcases List.mem_map.1 normal with ⟨p, inside, rfl⟩
    exact (ih p inside).merged _ _ q replaces

end Policy

end LockScript
