import LockScript.Proofs.Policy.KeyCount
import LockScript.Proofs.Policy.NormalForm
import Mathlib.Order.Bounds.Defs

/-!
The least number of signatures over all ways to meet a policy.

A way to meet a policy answers every condition of it, each on its own where it stands, so that the
same key may sign in one place and not in another. The price of a policy bounds every way to meet it
(`price_le`) and is attained by one (`exists_answers_of_price`). It is also what the normal form has
(`price_normalized`), though its conditions are fewer.
-/

namespace LockScript

namespace Policy

/-! ## The least sum of so many numbers -/

section Cheapest

variable {j k : Int} {c : WithTop ℕ} {xs ys : List (WithTop ℕ)}

theorem cheapest_mono (fewer : j ≤ k) : cheapest j xs ≤ cheapest k xs := by
  induction xs generalizing j k with
  | nil =>
    by_cases none : j ≤ 0
    · rw [cheapest_of_nonpos none]
      exact zero_le
    · rw [cheapest, cheapest, if_neg none, if_neg (by omega)]
  | cons c rest ih =>
    exact min_le_min (add_le_add_right (ih (by omega)) c) (ih fewer)

/-- What costs nothing is one less to find. -/
theorem cheapest_zero_cons : cheapest k (0 :: xs) = cheapest (k - 1) xs := by
  rw [cheapest, zero_add]
  exact min_eq_left (cheapest_mono (by omega))

/-- If all are needed, the first is among them. -/
theorem cheapest_cons_of_needed (all : xs.length < k) :
    cheapest k (c :: xs) = c + cheapest (k - 1) xs := by
  rw [cheapest, cheapest_of_length_lt all]
  exact min_eq_left le_top

theorem cheapest_append_of_needed (xs : List (WithTop ℕ)) (all : ys.length ≤ j) :
    cheapest (xs.length + j) (xs ++ ys) = cheapest xs.length xs + cheapest j ys := by
  induction xs with
  | nil =>
    rw [List.nil_append, List.length_nil, Int.natCast_zero, Int.zero_add,
      cheapest_of_nonpos (Int.le_refl 0), zero_add]
  | cons c rest ih =>
    have fewer : ((c :: rest).length : Int) + j - 1 = rest.length + j := by
      rw [List.length_cons]
      omega
    have fewer' : ((c :: rest).length : Int) - 1 = rest.length := by
      rw [List.length_cons]
      omega
    rw [List.cons_append, cheapest_cons_of_needed, fewer, ih, cheapest_cons_of_needed, fewer',
      add_assoc]
    · rw [List.length_cons]
      omega
    · rw [List.length_append, List.length_cons]
      omega

/-- If one is needed at most, it is from the one list or the other. -/
theorem cheapest_append_of_le_one (one : j ≤ 1) :
    cheapest j (xs ++ ys) = min (cheapest 1 xs) (cheapest j ys) := by
  induction xs with
  | nil =>
    rw [List.nil_append, cheapest, if_neg (by omega)]
    exact (min_eq_right le_top).symm
  | cons c rest ih =>
    have none {k : Int} (le : k ≤ 1) (xs : List (WithTop ℕ)) : c + cheapest (k - 1) xs = c := by
      rw [cheapest_of_nonpos (by omega), add_zero]
    rw [List.cons_append, cheapest, cheapest, none one, none (Int.le_refl 1), ih, min_assoc]

theorem cheapest_singleton : cheapest 1 [c] = c := by
  rw [cheapest, cheapest, cheapest, if_pos (by omega), if_neg (by omega), add_zero]
  exact min_eq_left le_top

end Cheapest

/-! ## Answers place by place -/

end Policy

namespace Condition

/-- Whether a condition is met, given the answer to it. -/
def isMetIf (answer : Bool) : Condition → Bool
  | .unsatisfiable => false
  | .trivial => true
  | _ => answer

/-- Whether the condition is a signature, by a key or by a key with a hash. -/
def isSignature : Condition → Bool
  | .key _ => true
  | .keyHash _ => true
  | _ => false

end Condition

namespace Policy

/-- An answer for each place in a policy. A place is given by the way to it, which is the index of a
branch for each threshold from the root on. -/
abbrev Answers := List ℕ → Bool

mutual

/-- Whether a policy is met, given the answers place by place. -/
def isMetAt (answers : Answers) : Policy → Bool
  | .leaf c _ => c.isMetIf (answers [])
  | .threshold k branches => k ≤ countMetAt (fun i place => answers (i :: place)) branches

/-- How many of the policies are met, each with its own answers. -/
def countMetAt (answers : ℕ → Answers) : List Policy → ℕ
  | [] => 0
  | p :: rest =>
    (if p.isMetAt (answers 0) then 1 else 0) + countMetAt (fun i => answers (i + 1)) rest

end

mutual

/-- The number of places with a signature where the answer is yes. -/
def signatures (answers : Answers) : Policy → ℕ
  | .leaf c _ => if c.isSignature && answers [] then 1 else 0
  | .threshold _ branches => signaturesOf (fun i place => answers (i :: place)) branches

/-- The number of such places in several policies. -/
def signaturesOf (answers : ℕ → Answers) : List Policy → ℕ
  | [] => 0
  | p :: rest => p.signatures (answers 0) + signaturesOf (fun i => answers (i + 1)) rest

end

theorem isMetAt_threshold_iff {answers : Answers} {k : Int} {branches : List Policy} :
    (threshold k branches).isMetAt answers = true ↔
      k ≤ countMetAt (fun i place => answers (i :: place)) branches := by
  rw [isMetAt, decide_eq_true_eq]

/-- So many policies cannot be met with fewer signatures than the least sum. -/
theorem cheapest_le {ps : List Policy}
    (each : ∀ p ∈ ps, ∀ answers, p.isMetAt answers = true →
      p.price ≤ WithTop.some (p.signatures answers)) {k : Int} {answers : ℕ → Answers}
    (enough : k ≤ countMetAt answers ps) :
    cheapest k (ps.map price) ≤ WithTop.some (signaturesOf answers ps) := by
  induction ps generalizing k answers with
  | nil => exact (cheapest_of_nonpos enough).le
  | cons p rest ih =>
    obtain ⟨first, others⟩ := List.forall_mem_cons.1 each
    rw [countMetAt] at enough
    rw [List.map_cons, cheapest, signaturesOf]
    by_cases met : p.isMetAt (answers 0) = true
    · rw [if_pos met] at enough
      exact min_le_of_left_le (add_le_add (first _ met) (ih others (by omega)))
    · rw [if_neg met] at enough
      have fewer := ih others (show k ≤ countMetAt (fun i => answers (i + 1)) rest by omega)
      exact min_le_of_right_le (fewer.trans (WithTop.coe_le_coe.2 (Nat.le_add_left _ _)))

/-- No way to meet a policy takes fewer signatures than its price. -/
theorem price_le {p : Policy} {answers : Answers} (met : p.isMetAt answers = true) :
    p.price ≤ WithTop.some (p.signatures answers) := by
  induction p generalizing answers with
  | leaf c attached =>
    rw [isMetAt] at met
    rw [price, signatures]
    cases c with
    | unsatisfiable => cases met
    | key signer =>
      rw [show answers [] = true from met]
      exact le_refl _
    | keyHash committed =>
      rw [show answers [] = true from met]
      exact le_refl _
    | _ => exact zero_le
  | threshold k branches ih =>
    rw [price_threshold]
    exact cheapest_le (fun p inside _ => ih p inside) (isMetAt_threshold_iff.1 met)

/-- No signature is counted where every answer is no. -/
theorem signatures_of_none (p : Policy) : p.signatures (fun _ => false) = 0 := by
  induction p with
  | leaf c attached => rw [signatures, Bool.and_false, if_neg Bool.false_ne_true]
  | threshold k branches ih =>
    rw [signatures]
    induction branches with
    | nil => rfl
    | cons p rest rest_ih =>
      obtain ⟨first, others⟩ := List.forall_mem_cons.1 ih
      rw [signaturesOf, first, rest_ih others]

/-- The answers of `first` for the first policy and those of `others` for the rest. -/
def Answers.cons (first : Answers) (others : ℕ → Answers) : ℕ → Answers
  | 0 => first
  | i + 1 => others i

theorem countMetAt_cons (first : Answers) (others : ℕ → Answers) (p : Policy) (rest : List Policy) :
    countMetAt (first.cons others) (p :: rest) =
      (if p.isMetAt first then 1 else 0) + countMetAt others rest := rfl

theorem signaturesOf_cons (first : Answers) (others : ℕ → Answers) (p : Policy)
    (rest : List Policy) :
    signaturesOf (first.cons others) (p :: rest) =
      p.signatures first + signaturesOf others rest := rfl

/-- The least sum is that of some answers. -/
theorem exists_answers_of_cheapest {ps : List Policy}
    (each : ∀ p ∈ ps, ∀ n, p.price = WithTop.some n →
      ∃ answers, p.isMetAt answers = true ∧ p.signatures answers = n) {k : Int} {n : ℕ}
    (least : cheapest k (ps.map price) = WithTop.some n) :
    ∃ answers, k ≤ countMetAt answers ps ∧ signaturesOf answers ps = n := by
  induction ps generalizing k n with
  | nil =>
    rw [List.map_nil, cheapest] at least
    split at least
    · next none => exact ⟨fun _ _ => false, none, WithTop.coe_inj.1 least⟩
    · exact absurd least WithTop.top_ne_coe
  | cons p rest ih =>
    obtain ⟨first, others⟩ := List.forall_mem_cons.1 each
    rw [List.map_cons, cheapest] at least
    rcases min_choice (p.price + cheapest (k - 1) (rest.map price)) (cheapest k (rest.map price))
      with taken | left
    · rw [taken] at least
      obtain ⟨a, b, own, sum, total⟩ := WithTop.add_eq_coe.1 least
      obtain ⟨head, met, count⟩ := first a own.symm
      obtain ⟨tail, enough, count'⟩ := ih others sum.symm
      refine ⟨head.cons tail, ?_, ?_⟩
      · rw [countMetAt_cons, if_pos met]
        omega
      · rw [signaturesOf_cons, count, count', total]
    · rw [left] at least
      obtain ⟨tail, enough, count⟩ := ih others least
      refine ⟨Answers.cons (fun _ => false) tail, ?_, ?_⟩
      · rw [countMetAt_cons]
        omega
      · rw [signaturesOf_cons, signatures_of_none, Nat.zero_add, count]

/-- The answers for a threshold, from those for its branches. -/
def Answers.under (branches : ℕ → Answers) : Answers
  | [] => false
  | i :: place => branches i place

/-- A policy that has a price is met in some way with just as many signatures. -/
theorem exists_answers_of_price {p : Policy} {n : ℕ} (own : p.price = WithTop.some n) :
    ∃ answers, p.isMetAt answers = true ∧ p.signatures answers = n := by
  induction p generalizing n with
  | leaf c attached =>
    rw [price] at own
    cases c with
    | unsatisfiable => exact absurd own WithTop.top_ne_coe
    | _ => exact ⟨fun _ => true, rfl, WithTop.coe_inj.1 own⟩
  | threshold k branches ih =>
    rw [price_threshold] at own
    obtain ⟨answers, enough, count⟩ :=
      exists_answers_of_cheapest (fun p inside _ => ih p inside) own
    exact ⟨.under answers, isMetAt_threshold_iff.2 enough, count⟩

/-! ## Normal forms -/

/-- What a normalized branch comes to, by the reason for it. -/
theorem merged_cases (isAnd isOr : Bool) (p : Policy) :
    p.price = 0 ∧ merged isAnd isOr p = (-1, []) ∨
      p.price = ⊤ ∧ merged isAnd isOr p = (0, []) ∨
      merged isAnd isOr p = (0, [p]) ∨
      ∃ k branches, p = threshold k branches ∧
        (isAnd = true ∧ k = branches.length ∧ merged isAnd isOr p = (k - 1, branches) ∨
          isOr = true ∧ k = 1 ∧ merged isAnd isOr p = (0, branches)) := by
  cases p with
  | leaf c attached =>
    cases c with
    | trivial => exact .inl ⟨rfl, rfl⟩
    | unsatisfiable => exact .inr (.inl ⟨rfl, rfl⟩)
    | _ => exact .inr (.inr (.inl rfl))
  | threshold k branches =>
    right; right
    rw [merged]
    split
    · next conjunction =>
      exact .inr ⟨k, branches, rfl, .inl ⟨conjunction.1, conjunction.2, rfl⟩⟩
    · split
      · next disjunction =>
        exact .inr ⟨k, branches, rfl, .inr ⟨disjunction.1, disjunction.2, rfl⟩⟩
      · exact .inl rfl

theorem price_atLeast (k : Int) (ps : List Policy) :
    (atLeast k ps).price = cheapest k (ps.map price) := by
  unfold atLeast
  split
  · next none => exact (cheapest_of_nonpos none).symm
  · split
    · next many =>
      refine (cheapest_of_length_lt ?_).symm
      rwa [List.length_map]
    · next some few =>
      split
      · next p =>
        rw [List.length_singleton] at few
        rw [show k = 1 by omega]
        exact cheapest_singleton.symm
      · exact price_threshold k ps

section Spreading

variable (ns : List Policy)

/-- In a threshold of neither kind a branch stays, unless it is decided. -/
theorem cheapest_spread_neither (k : Int) :
    cheapest (k + shift false false ns) ((spread false false ns).map price) =
      cheapest k (ns.map price) := by
  induction ns generalizing k with
  | nil => rw [shift, List.map_nil, List.map_nil, List.foldr_nil, Int.add_zero]; rfl
  | cons p rest ih =>
    rw [shift_cons, spread_cons, List.map_cons, List.map_append]
    rcases merged_cases false false p with
      ⟨free, shape⟩ | ⟨never, shape⟩ | shape | ⟨k, branches, -, ⟨⟨⟩, -⟩ | ⟨⟨⟩, -⟩⟩
    · rw [shape, free, cheapest_zero_cons, ← ih (k - 1)]
      exact congrArg (cheapest · _) (by omega)
    · rw [shape, never, cheapest_top_cons, ← ih k]
      exact congrArg (cheapest · _) (by omega)
    · have same : k + (0 + shift false false rest) = k + shift false false rest := by omega
      have fewer : k + shift false false rest - 1 = k - 1 + shift false false rest := by omega
      rw [shape, same, cheapest, ← ih k, ← ih (k - 1), ← fewer]
      rfl

/-- In a conjunction everything is needed, whether a branch stays or gives way to its own. -/
theorem cheapest_spread_and :
    cheapest (ns.length + shift true false ns) ((spread true false ns).map price) =
      cheapest ns.length (ns.map price) := by
  induction ns with
  | nil => rfl
  | cons p rest ih =>
    have room := length_spread_le true rest
    rw [← List.length_map (f := price)] at room
    have needed : cheapest (p :: rest).length ((p :: rest).map price) =
        p.price + cheapest rest.length (rest.map price) := by
      rw [List.map_cons, List.length_cons, Int.natCast_succ, cheapest_cons_of_needed,
        Int.add_sub_cancel]
      rw [List.length_map]
      omega
    rw [needed, ← ih, shift_cons, spread_cons, List.map_append, List.length_cons]
    rcases merged_cases true false p with
      ⟨free, shape⟩ | ⟨never, shape⟩ | shape | ⟨k, branches, rfl, ⟨-, all, shape⟩ | ⟨⟨⟩, -⟩⟩
    · rw [shape, free, zero_add]
      exact congrArg (cheapest · _) (by omega)
    · rw [shape, never, WithTop.top_add]
      exact cheapest_of_length_lt (by rw [List.map_nil, List.nil_append]; omega)
    · have joined := cheapest_append_of_needed [p.price] room
      rw [List.length_singleton, Int.natCast_one, cheapest_singleton] at joined
      rw [shape, ← joined]
      exact congrArg (cheapest · _) (by omega)
    · have joined := cheapest_append_of_needed (branches.map price) room
      rw [List.length_map, ← all, ← price_threshold] at joined
      rw [shape, ← joined]
      exact congrArg (cheapest · _) (by omega)

/-- In a disjunction one is needed at most, whether a branch stays or gives way to its own. -/
theorem cheapest_spread_or :
    cheapest (1 + shift false true ns) ((spread false true ns).map price) =
      cheapest 1 (ns.map price) := by
  induction ns with
  | nil => rfl
  | cons p rest ih =>
    have least := shift_nonpos true rest
    have either : cheapest 1 ((p :: rest).map price) =
        min p.price (cheapest 1 (rest.map price)) := by
      rw [List.map_cons, ← List.singleton_append, cheapest_append_of_le_one (Int.le_refl 1),
        cheapest_singleton]
    rw [either, ← ih, shift_cons, spread_cons, List.map_append]
    rcases merged_cases false true p with
      ⟨free, shape⟩ | ⟨never, shape⟩ | shape | ⟨k, branches, rfl, ⟨⟨⟩, -⟩ | ⟨-, rfl, shape⟩⟩
    · rw [shape, free, cheapest_of_nonpos (by omega)]
      exact (min_eq_left zero_le).symm
    · rw [shape, never, Int.zero_add]
      exact (min_eq_right le_top).symm
    · rw [shape, Int.zero_add, cheapest_append_of_le_one (by omega)]
      exact congrArg (min · _) cheapest_singleton
    · rw [shape, Int.zero_add, cheapest_append_of_le_one (by omega), price_threshold]

/-- A single branch may give way to its own in either way. -/
theorem cheapest_spread_alone (p : Policy) :
    cheapest (1 + shift true true [p]) ((spread true true [p]).map price) = p.price := by
  rw [shift_cons, spread_cons]
  rcases merged_cases true true p with
    ⟨free, shape⟩ | ⟨never, shape⟩ | shape | ⟨k, branches, rfl, ⟨-, all, shape⟩ | ⟨-, rfl, shape⟩⟩
  · rw [shape, free]
    rfl
  · rw [shape, never]
    rfl
  · rw [shape]
    exact cheapest_singleton
  · rw [shape, price_threshold, spread, List.map_nil, List.flatMap_nil, List.append_nil]
    exact congrArg (cheapest · _) (by rw [shift, List.map_nil, List.map_nil, List.foldr_nil]; omega)
  · rw [shape, price_threshold, spread, List.map_nil, List.flatMap_nil, List.append_nil]
    rfl

/-- What takes the place of the branches of a threshold has the same least sum. -/
theorem cheapest_spread (k : Int) :
    cheapest (k + shift (k = ns.length) (k = 1) ns)
        ((spread (k = ns.length) (k = 1) ns).map price) =
      cheapest k (ns.map price) := by
  by_cases all : k = ns.length
  · by_cases one : k = 1
    · obtain ⟨p, rfl⟩ : ∃ p, ns = [p] := List.length_eq_one_iff.1 (by omega)
      rw [decide_eq_true all, decide_eq_true one, one, cheapest_spread_alone]
      exact cheapest_singleton.symm
    · rw [decide_eq_true all, decide_eq_false one, all, cheapest_spread_and]
  · by_cases one : k = 1
    · rw [decide_eq_false all, decide_eq_true one, one, cheapest_spread_or]
    · rw [decide_eq_false all, decide_eq_false one, cheapest_spread_neither]

end Spreading

/-- The normal form of a policy has the same price. -/
theorem price_normalized {p : Policy} (counted : p.Counted) : p.normalized.price = p.price := by
  induction counted with
  | leaf c attached => rfl
  | @threshold k branches nonneg each ih =>
    have same : (branches.map normalized).map price = branches.map price := by
      rw [List.map_map]
      exact List.map_congr_left ih
    have spread := cheapest_spread (branches.map normalized) k
    rw [List.length_map, same] at spread
    rw [normalized_threshold, stillNeeded_of_nonneg nonneg, change_eq_shift, price_atLeast,
      price_threshold, spread]

/-- The least number of signatures is exact. There is none just if no answers meet the policy,
answers being given for each place on its own, and else it is the least number of places with a
signature where the answer is yes, over all answers that meet the policy. The normal form has the
same. -/
theorem minimumKeys_exact {p : Policy} (counted : p.Counted) :
    ∃ least, p.minimumKeys = .ok least ∧
      (least = none ↔ ∀ answers, p.isMetAt answers = false) ∧
      (∀ n, least = some n →
        IsLeast {m | ∃ answers, p.isMetAt answers = true ∧ p.signatures answers = m} n) ∧
      p.normalized.minimumKeys = p.minimumKeys := by
  obtain ⟨least, found, same⟩ := minimumKeys_eq_price counted
  obtain ⟨least', found', same'⟩ := minimumKeys_eq_price counted.normalized
  rw [price_normalized counted, ← same] at same'
  refine ⟨least, found, ⟨?_, ?_⟩, ?_, ?_⟩
  · rintro rfl answers
    rw [Bool.eq_false_iff]
    intro met
    exact absurd (price_le met) (by rw [← same]; exact WithTop.not_top_le_coe _)
  · intro never
    cases least with
    | none => rfl
    | some n =>
      obtain ⟨answers, met, -⟩ := exists_answers_of_price same.symm
      rw [never answers] at met
      cases met
  · rintro n rfl
    refine ⟨exists_answers_of_price same.symm, ?_⟩
    rintro m ⟨answers, met, rfl⟩
    exact WithTop.coe_le_coe.1 (same.trans_le (price_le met))
  · rw [found', found, reach_inj same']

/-- Two out of four: a key or a key at an age, three of two keys, a key that is not asked for, and
one of the keys again with a key that is known by its hash. -/
def quorum : Policy :=
  .threshold 2 [
    .threshold 1 [.leaf (.key (.named (utf8 "A"))) [],
      .threshold 2 [.leaf (.key (.named (utf8 "B"))) [], .leaf (.older 5) []]],
    .threshold 3 [.leaf (.key (.named (utf8 "A"))) [], .leaf (.key (.named (utf8 "C"))) []],
    .threshold 0 [.leaf (.key (.named (utf8 "D"))) []],
    .threshold 2 [.leaf (.key (.named (utf8 "A"))) [],
      .leaf (.keyHash ⟨List.replicate 20 7, rfl⟩) []]]

/-- The second can never be met and the third always is, so that one signature is enough. -/
theorem minimumKeys_exact_quorum :
    quorum.Counted ∧ quorum.minimumKeys = .ok (some 1) ∧
      quorum.normalized.minimumKeys = .ok (some 1) ∧
      IsLeast {m | ∃ answers, quorum.isMetAt answers = true ∧ quorum.signatures answers = m} 1 := by
  have counted : quorum.Counted := by
    refine .threshold (by decide) ?_
    simp only [List.forall_mem_cons, List.not_mem_nil, false_implies, implies_true, and_true]
    refine ⟨.threshold (by decide) ?_, .threshold (by decide) ?_, .threshold (by decide) ?_,
      .threshold (by decide) ?_⟩
    · simp only [List.forall_mem_cons, List.not_mem_nil, false_implies, implies_true, and_true]
      exact ⟨.leaf _ _, .threshold (by decide) (by simp [Counted.leaf])⟩
    all_goals simp [Counted.leaf]
  obtain ⟨least, found, same⟩ := minimumKeys_eq_price counted
  obtain rfl : least = some 1 := reach_inj (same.trans (by decide))
  obtain ⟨least, found', -, exactly, normal⟩ := minimumKeys_exact counted
  rw [found, Except.ok.injEq] at found'
  exact ⟨counted, found, normal.trans found, exactly 1 found'.symm⟩

end Policy

end LockScript
