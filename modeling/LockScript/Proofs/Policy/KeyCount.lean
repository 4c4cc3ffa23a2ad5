import LockScript.Policy.KeyCount
import LockScript.Proofs.Policy.Evaluation
import Mathlib.Algebra.Order.Monoid.Unbundled.MinMax
import Mathlib.Algebra.Order.Monoid.Unbundled.WithTop
import Mathlib.Algebra.Order.Ring.Nat
import Mathlib.Order.Lattice.Nat

/-!
The least number of signatures of a policy.

It is added up from the smallest numbers of the branches. Taken apart one branch at a time
(`cheapest`), it is a number that may be out of reach (`minimumKeys_eq_price`). Whether it is zero,
and whether it is within reach, is told by what conditions cost on their own, because a sum is zero or
within reach just if both its parts are (`Additive`). So it is zero just for the policies that are met
when everything but signatures is at hand (`exists_minimumKeys_unsigned`).
-/

namespace LockScript

/-- Whether a condition can be met without a signature. -/
def Condition.isUnsigned : Condition → Bool
  | .unsatisfiable => false
  | .key _ => false
  | .keyHash _ => false
  | _ => true

theorem Condition.consistent_isUnsigned : Condition.Consistent Condition.isUnsigned := ⟨rfl, rfl⟩

namespace Policy

/-! ## The least sum of so many numbers -/

/-- The least that at least `k` of the numbers add up to. A number that is not to be had is `⊤`. -/
def cheapest (k : Int) : List (WithTop ℕ) → WithTop ℕ
  | [] => if k ≤ 0 then 0 else ⊤
  | c :: rest => min (c + cheapest (k - 1) rest) (cheapest k rest)

section Cheapest

variable {k : Int} {c : WithTop ℕ} {xs ys : List (WithTop ℕ)}

theorem cheapest_of_nonpos (none : k ≤ 0) : cheapest k xs = 0 := by
  induction xs generalizing k with
  | nil => exact if_pos none
  | cons c rest ih =>
    rw [cheapest, ih none]
    exact min_eq_right zero_le

theorem cheapest_of_length_lt (short : xs.length < k) : cheapest k xs = ⊤ := by
  induction xs generalizing k with
  | nil =>
    rw [List.length_nil] at short
    exact if_neg (by omega)
  | cons c rest ih =>
    rw [List.length_cons] at short
    rw [cheapest, ih (by omega), ih (by omega), WithTop.add_top, min_self]

theorem cheapest_top_cons : cheapest k (⊤ :: xs) = cheapest k xs := by
  rw [cheapest, WithTop.top_add]
  exact min_eq_right le_top

theorem cheapest_perm (same : xs.Perm ys) : cheapest k xs = cheapest k ys := by
  induction same generalizing k with
  | nil => rfl
  | cons c _ ih => rw [cheapest, cheapest, ih, ih]
  | swap c d rest =>
    simp only [cheapest, ← min_add_add_left, ← add_assoc]
    rw [add_comm d c, min_assoc, min_assoc, ← min_assoc (d + _), ← min_assoc (c + _),
      min_comm (d + _) (c + _)]
  | trans _ _ ih ih' => rw [ih, ih']

/-- A number that is as small as any may take the place of the next. -/
theorem add_cheapest_le (least : ∀ d ∈ xs, c ≤ d) (some : 0 ≤ k) :
    c + cheapest k xs ≤ cheapest (k + 1) xs := by
  induction xs with
  | nil =>
    rw [cheapest, cheapest, if_neg (show ¬ k + 1 ≤ 0 by omega)]
    exact le_top
  | cons d rest ih =>
    obtain ⟨first, others⟩ := List.forall_mem_cons.1 least
    rw [cheapest, cheapest, Int.add_sub_cancel]
    refine le_min ?_ ?_
    · exact add_le_add first (min_le_right _ _)
    · exact (add_le_add_right (min_le_right _ _) c).trans (ih others)

/-- The smallest of the numbers in order are the first. -/
theorem cheapest_of_pairwise {ns : List ℕ} (ordered : ns.Pairwise (· ≤ ·)) {n : ℕ}
    (room : n ≤ ns.length) :
    cheapest n (ns.map WithTop.some) = WithTop.some ((ns.take n).foldr (· + ·) 0) := by
  induction ns generalizing n with
  | nil =>
    obtain rfl := Nat.le_zero.1 room
    rfl
  | cons m rest ih =>
    cases n with
    | zero => exact cheapest_of_nonpos (Int.le_refl 0)
    | succ n =>
      obtain ⟨least, ordered⟩ := List.pairwise_cons.1 ordered
      have above : ∀ d ∈ rest.map WithTop.some, WithTop.some m ≤ d :=
        List.forall_mem_map.2 fun d inside => WithTop.coe_le_coe.2 (least d inside)
      have first := add_cheapest_le above (Int.natCast_nonneg n)
      rw [List.map_cons, Int.natCast_succ, cheapest, Int.add_sub_cancel, min_eq_left first,
        ih ordered (Nat.le_of_succ_le_succ room)]
      rfl

end Cheapest

/-- A number that may be missing, as one that may be out of reach. -/
def reach : Option ℕ → WithTop ℕ
  | none => ⊤
  | some n => WithTop.some n

theorem reach_inj {m n : Option ℕ} (same : reach m = reach n) : m = n := by
  cases m with
  | none =>
    cases n with
    | none => rfl
    | some n => exact absurd same WithTop.top_ne_coe
  | some m =>
    cases n with
    | none => exact absurd same WithTop.coe_ne_top
    | some n => exact congrArg some (WithTop.coe_inj.1 same)

theorem pairwise_mergeSort (counts : List Nat) :
    (counts.mergeSort (· ≤ ·)).Pairwise (· ≤ ·) := by
  have transitive (a b c : Nat) (ab : decide (a ≤ b) = true) (bc : decide (b ≤ c) = true) :
      decide (a ≤ c) = true := by
    rw [decide_eq_true_eq] at ab bc ⊢
    exact Nat.le_trans ab bc
  have total (a b : Nat) : (decide (a ≤ b) || decide (b ≤ a)) = true := by
    rw [Bool.or_eq_true, decide_eq_true_eq, decide_eq_true_eq]
    exact Nat.le_total a b
  exact (List.pairwise_mergeSort transitive total counts).imp fun le => of_decide_eq_true le

/-- The sum of the smallest numbers is the least sum. -/
theorem leastSum_eq_cheapest {k : Int} (nonneg : 0 ≤ k) (counts : List ℕ) :
    ∃ n, leastSum k counts = .ok n ∧ reach n = cheapest k (counts.map WithTop.some) := by
  unfold leastSum
  by_cases short : counts.length < k
  · refine ⟨none, if_pos short, (cheapest_of_length_lt ?_).symm⟩
    rwa [List.length_map]
  · refine ⟨_, (if_neg short).trans (if_neg (by omega)), ?_⟩
    have same := List.mergeSort_perm counts (fun a b : ℕ => decide (a ≤ b))
    obtain ⟨n, rfl⟩ := Int.eq_ofNat_of_zero_le nonneg
    rw [← cheapest_perm (same.map WithTop.some), cheapest_of_pairwise (pairwise_mergeSort counts)]
    · rfl
    · rw [same.length_eq]
      omega

/-! ## Prices -/

end Policy

/-- The signatures that a condition needs. -/
def Condition.price : Condition → WithTop ℕ
  | .unsatisfiable => ⊤
  | .key _ => 1
  | .keyHash _ => 1
  | _ => 0

namespace Policy

mutual

/-- The least number of signatures that meets a policy, one branch at a time. -/
def price : Policy → WithTop ℕ
  | .leaf c _ => c.price
  | .threshold k branches => cheapest k (prices branches)

/-- The least numbers of signatures for several policies. -/
def prices : List Policy → List (WithTop ℕ)
  | [] => []
  | p :: rest => p.price :: prices rest

end

theorem prices_eq_map (ps : List Policy) : prices ps = ps.map price := by
  induction ps with
  | nil => rfl
  | cons p rest ih => rw [prices, ih, List.map_cons]

theorem price_threshold (k : Int) (branches : List Policy) :
    (threshold k branches).price = cheapest k (branches.map price) := by
  rw [price, prices_eq_map]

/-- The least number of signatures of a policy that has one. -/
def least? (p : Policy) : Option Nat :=
  match p.minimumKeys with
  | .ok n => n
  | .error _ => none

theorem least?_eq {p : Policy} {n : Option Nat} (found : p.minimumKeys = .ok n) : p.least? = n := by
  rw [least?, found]

theorem minimumKeysOf_eq {ps : List Policy} (each : ∀ p ∈ ps, ∃ n, p.minimumKeys = .ok n) :
    minimumKeysOf ps = .ok (ps.filterMap least?) := by
  induction ps with
  | nil => rfl
  | cons p rest ih =>
    rcases each p List.mem_cons_self with ⟨n, found⟩
    rw [minimumKeysOf, found, ih fun q member => each q (List.mem_cons_of_mem _ member),
      List.filterMap_cons, least?_eq found]
    cases n <;> rfl

/-- Policies that cannot be met do not count. -/
theorem cheapest_filterMap {ps : List Policy} (each : ∀ p ∈ ps, reach p.least? = p.price)
    (k : Int) :
    cheapest k ((ps.filterMap least?).map WithTop.some) = cheapest k (ps.map price) := by
  induction ps generalizing k with
  | nil => rfl
  | cons p rest ih =>
    obtain ⟨first, others⟩ := List.forall_mem_cons.1 each
    rw [List.map_cons, ← first, List.filterMap_cons]
    cases p.least? with
    | none => rw [ih others, reach, cheapest_top_cons]
    | some n => rw [List.map_cons, cheapest, ih others, ih others, reach, cheapest]

/-- The least number of signatures is the price. -/
theorem minimumKeys_eq_price {p : Policy} (counted : p.Counted) :
    ∃ n, p.minimumKeys = .ok n ∧ reach n = p.price := by
  induction counted with
  | leaf c attached => cases c <;> exact ⟨_, rfl, rfl⟩
  | @threshold k branches nonneg each ih =>
    have found : ∀ p ∈ branches, ∃ n, p.minimumKeys = .ok n := fun p inside =>
      (ih p inside).imp fun _ => And.left
    have own : ∀ p ∈ branches, reach p.least? = p.price := by
      intro p inside
      obtain ⟨n, found, same⟩ := ih p inside
      rw [least?_eq found, same]
    obtain ⟨n, least, same⟩ := leastSum_eq_cheapest nonneg (branches.filterMap least?)
    refine ⟨n, ?_, ?_⟩
    · rw [minimumKeys, minimumKeysOf_eq found]
      exact least
    · rw [same, cheapest_filterMap own, price_threshold]

/-! ## Free of charge and within reach -/

/-- A property of zero and not of `⊤`, which a sum has just if both its parts have it, and the smaller
of two numbers just if one of them has it. -/
structure Additive (holds : WithTop ℕ → Bool) : Prop where
  zero : holds 0 = true
  top : holds ⊤ = false
  add (a b : WithTop ℕ) : holds (a + b) = (holds a && holds b)
  min (a b : WithTop ℕ) : holds (min a b) = (holds a || holds b)

section Additive

variable {holds : WithTop ℕ → Bool}

theorem additive_zero : Additive fun a => decide (a = 0) where
  zero := rfl
  top := rfl
  add a b := by simp [Bool.decide_and]
  min a b := by simp only [← nonpos_iff_eq_zero, min_le_iff, Bool.decide_or]

theorem additive_lt_top : Additive fun a => decide (a < ⊤) where
  zero := by simp
  top := by simp
  add a b := by simp [WithTop.add_lt_top]
  min a b := by simp

theorem Additive.cheapest_iff (additive : Additive holds) (k : Int) (xs : List (WithTop ℕ)) :
    holds (cheapest k xs) = true ↔ k ≤ xs.countP holds := by
  induction xs generalizing k with
  | nil =>
    by_cases none : k ≤ 0
    · simp [cheapest, none, additive.zero]
    · simp [cheapest, none, additive.top]
  | cons c rest ih =>
    rw [cheapest, additive.min, additive.add, Bool.or_eq_true, Bool.and_eq_true, ih, ih,
      List.countP_cons]
    cases holds c with
    | false => simp
    | true =>
      simp only [if_true, true_and]
      omega

/-- The price has the property just if the policy is met by the conditions whose price has it. -/
theorem Additive.price_eq (additive : Additive holds) (p : Policy) :
    holds p.price = p.isMet fun c => holds c.price := by
  induction p with
  | leaf c attached => rfl
  | threshold k branches ih =>
    have same : (branches.map price).countP holds
        = branches.countP (isMet fun c => holds c.price) := by
      rw [List.countP_map]
      exact List.countP_congr fun p inside => by rw [Function.comp, ih p inside]
    rw [Bool.eq_iff_iff, price_threshold, additive.cheapest_iff, same, isMet_threshold_iff]

theorem Additive.exists_minimumKeys (additive : Additive holds) {p : Policy} (counted : p.Counted) :
    ∃ n, p.minimumKeys = .ok n ∧ holds (reach n) = p.isMet fun c => holds c.price := by
  obtain ⟨n, found, same⟩ := minimumKeys_eq_price counted
  exact ⟨n, found, same ▸ additive.price_eq p⟩

end Additive

/-- The least number of signatures is zero just if the policy is met without any. -/
theorem exists_minimumKeys_unsigned {p : Policy} (counted : p.Counted) :
    ∃ n, p.minimumKeys = .ok n ∧ (n = some 0 ↔ p.isMet Condition.isUnsigned = true) := by
  have free : (fun c : Condition => decide (c.price = 0)) = Condition.isUnsigned := by
    funext c
    cases c <;> rfl
  obtain ⟨n, found, tells⟩ := additive_zero.exists_minimumKeys counted
  refine ⟨n, found, ?_⟩
  rw [free] at tells
  rw [← tells, decide_eq_true_eq]
  cases n with
  | none => simp [reach]
  | some n => simp [reach]

end Policy

end LockScript
