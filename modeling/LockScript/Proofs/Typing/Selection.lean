import LockScript.Proofs.Typing.Inversion
import Mathlib.Data.List.Perm.Basic

/-!
The parts of a threshold that are satisfied.

The operations of a threshold are counted without going through the ways to select the parts that
are satisfied: all parts start out dissatisfied, and then the largest differences are added. The
count is what going through all the ways comes to (`Cost.thresholdSat_eq_mostOps`). This comes down to
numbers in descending order: of one number more, either it is among the largest or they are what they
were (`Cost.largest_cons`).
-/

namespace LockScript

/-! ## Counts as numbers -/

namespace OpCount

variable {a b c : OpCount Int}

@[simp] theorem none_and (a : OpCount Int) : OpCount.and none a = none := by
  cases a <;> rfl

@[simp] theorem and_none (a : OpCount Int) : OpCount.and a none = none := by
  cases a <;> rfl

@[simp] theorem some_and_some (n m : Int) : OpCount.and (some n) (some m) = some (n + m) := rfl

@[simp] theorem none_or (a : OpCount Int) : OpCount.or none a = a := by
  cases a <;> rfl

@[simp] theorem or_none (a : OpCount Int) : OpCount.or a none = a := by
  cases a <;> rfl

@[simp] theorem some_or_some (n m : Int) : OpCount.or (some n) (some m) = some (max n m) := by
  simp only [OpCount.or, Counting.toInt_int, Option.some.injEq]
  split <;> omega

theorem plus_eq (a : OpCount Int) (n : Int) : a.plus n = OpCount.and a (some n) := rfl

@[simp] theorem isSome_plus {ν : Type} [Add ν] (a : OpCount ν) (n : ν) :
    (a.plus n).isSome = a.isSome := by
  cases a <;> rfl

theorem and_comm (a b : OpCount Int) : OpCount.and a b = OpCount.and b a := by
  cases a <;> cases b <;> simp [Int.add_comm]

theorem and_assoc (a b c : OpCount Int) :
    OpCount.and (OpCount.and a b) c = OpCount.and a (OpCount.and b c) := by
  cases a <;> cases b <;> cases c <;> simp [Int.add_assoc]

theorem or_assoc (a b c : OpCount Int) :
    OpCount.or (OpCount.or a b) c = OpCount.or a (OpCount.or b c) := by
  cases a <;> cases b <;> cases c <;> simp [Int.max_assoc]

theorem and_or (a b c : OpCount Int) :
    OpCount.and a (OpCount.or b c) = OpCount.or (OpCount.and a b) (OpCount.and a c) := by
  cases a <;> cases b <;> cases c <;> simp

theorem or_and (a b c : OpCount Int) :
    OpCount.and (OpCount.or a b) c = OpCount.or (OpCount.and a c) (OpCount.and b c) := by
  rw [and_comm, and_or, and_comm c, and_comm c]

@[simp] theorem zero_and (a : OpCount Int) : OpCount.and (some 0) a = a := by
  cases a <;> simp

/-- A difference added to what it is the difference to. -/
theorem and_plus_sub (s d : Int) (a b : OpCount Int) :
    OpCount.and (some d) (OpCount.and a (b.plus (s - d)))
      = OpCount.and (some s) (OpCount.and a b) := by
  cases a <;> cases b <;> simp [plus_eq]
  omega

/-- Counts that are added up from the left. -/
theorem foldl_and (count : Cost Int → OpCount Int) (start : OpCount Int) (subs : List (Cost Int)) :
    subs.foldl (fun n c => OpCount.and n (count c)) start =
      OpCount.and start (subs.foldl (fun n c => OpCount.and n (count c)) (some 0)) := by
  induction subs generalizing start with
  | nil => simp [and_comm start]
  | cons c rest ih =>
    rw [List.foldl_cons, List.foldl_cons, zero_and, ih, ih (count c), and_assoc]

end OpCount

namespace Cost

/-! ## The largest numbers -/

theorem insertDown_perm (n : Int) (ns : List Int) : (insertDown n ns).Perm (n :: ns) := by
  induction ns with
  | nil => exact .refl _
  | cons m rest ih =>
    rw [insertDown]
    split
    · exact .refl _
    · exact (ih.cons m).trans (.swap n m rest)

theorem sortDown_perm (ns : List Int) : (sortDown ns).Perm ns := by
  induction ns with
  | nil => exact .refl _
  | cons n rest ih => exact (insertDown_perm n _).trans (ih.cons n)

theorem mem_insertDown {n m : Int} {ns : List Int} : m ∈ insertDown n ns ↔ m = n ∨ m ∈ ns := by
  rw [(insertDown_perm n ns).mem_iff, List.mem_cons]

theorem descending_insertDown (n : Int) {ns : List Int} (descending : ns.Pairwise (· ≥ ·)) :
    (insertDown n ns).Pairwise (· ≥ ·) := by
  induction ns with
  | nil => exact List.pairwise_singleton _ n
  | cons m rest ih =>
    rcases List.pairwise_cons.1 descending with ⟨above, tail⟩
    simp only [insertDown, Counting.toInt_int]
    split
    · next smaller =>
      refine List.pairwise_cons.2 ⟨?_, descending⟩
      intro i member
      rcases List.mem_cons.1 member with rfl | later
      · exact Int.le_of_lt smaller
      · exact Int.le_trans (above i later) (Int.le_of_lt smaller)
    · next larger =>
      refine List.pairwise_cons.2 ⟨?_, ih tail⟩
      intro i member
      rcases mem_insertDown.1 member with rfl | later
      · exact Int.not_lt.1 larger
      · exact above i later

theorem descending_sortDown (ns : List Int) : (sortDown ns).Pairwise (· ≥ ·) := by
  induction ns with
  | nil => exact .nil
  | cons n rest ih => exact descending_insertDown n ih

/-- The next number may be replaced by one that is as large as any. -/
theorem sum_take_succ_le {e : Int} {ns : List Int} (above : ∀ m ∈ ns, m ≤ e) {n : Nat}
    (room : n < ns.length) :
    Counting.sum (ns.take (n + 1)) ≤ e + Counting.sum (ns.take n) := by
  induction ns generalizing n with
  | nil => cases room
  | cons m rest ih =>
    have first := above m List.mem_cons_self
    cases n with
    | zero => simpa using first
    | succ n =>
      have tail := ih (fun i member => above i (List.mem_cons_of_mem _ member))
        (Nat.lt_of_succ_lt_succ room)
      simp only [List.take_succ_cons, Counting.sum_int, List.foldr_cons] at tail ⊢
      omega

/-- Of the numbers in descending order and one more, the first few add up to the larger of two sums:
with the new number among them, and without. -/
theorem sum_take_insertDown (e : Int) {ns : List Int} (descending : ns.Pairwise (· ≥ ·)) {n : Nat}
    (room : n < ns.length) :
    Counting.sum ((insertDown e ns).take (n + 1)) =
      max (e + Counting.sum (ns.take n)) (Counting.sum (ns.take (n + 1))) := by
  induction ns generalizing n with
  | nil => cases room
  | cons m rest ih =>
    rcases List.pairwise_cons.1 descending with ⟨above, tail⟩
    simp only [insertDown, Counting.toInt_int]
    split
    · next smaller =>
      have atMost : ∀ i ∈ m :: rest, i ≤ e := by
        intro i member
        rcases List.mem_cons.1 member with rfl | later
        · exact Int.le_of_lt smaller
        · exact Int.le_trans (above i later) (Int.le_of_lt smaller)
      rw [Int.max_eq_left (sum_take_succ_le atMost room), List.take_succ_cons]
      rfl
    · next larger =>
      cases n with
      | zero => simp only [List.take_succ_cons, List.take_zero, Counting.sum_int, List.foldr_cons,
          List.foldr_nil]; omega
      | succ n =>
        have next := ih tail (Nat.lt_of_succ_lt_succ room)
        simp only [List.take_succ_cons, Counting.sum_int, List.foldr_cons] at next ⊢
        omega

/-- The most that `need` of the numbers add up to, if there are as many. -/
def largest (need : Int) (ns : List Int) : OpCount Int :=
  if need < 0 ∨ need > ns.length then none
  else some (Counting.sum ((sortDown ns).take need.toNat))

theorem largest_of_outside {need : Int} {ns : List Int} (outside : need < 0 ∨ need > ns.length) :
    largest need ns = none :=
  if_pos outside

theorem largest_of_le {n : Nat} {ns : List Int} (enough : n ≤ ns.length) :
    largest n ns = some (Counting.sum ((sortDown ns).take n)) := by
  rw [largest, if_neg (by omega), Int.toNat_natCast]

theorem largest_nil (need : Int) : largest need [] = if need = 0 then some 0 else none := by
  by_cases zero : need = 0
  · subst zero
    rfl
  · rw [if_neg zero, largest_of_outside]
    rw [List.length_nil]
    omega

theorem largest_zero (ns : List Int) : largest 0 ns = some 0 :=
  largest_of_le (Nat.zero_le ns.length)

/-- One number more is either among the largest or not. -/
theorem largest_succ_cons (n : Nat) (e : Int) (ns : List Int) :
    largest (n + 1 : Nat) (e :: ns) =
      OpCount.or ((largest n ns).plus e) (largest (n + 1 : Nat) ns) := by
  have perm := sortDown_perm ns
  rcases Nat.lt_trichotomy n ns.length with room | all | few
  · have fits := Nat.le_of_lt room
    have some := sum_take_insertDown e (descending_sortDown ns) (perm.length_eq ▸ room)
    rw [largest_of_le (Nat.succ_le_succ fits), largest_of_le fits, largest_of_le room,
      sortDown, some, OpCount.plus_eq, OpCount.some_and_some, OpCount.some_or_some, Int.add_comm e]
  · have fits := Nat.le_of_eq all
    -- All the numbers are needed, so that the order does not matter.
    have whole : Counting.sum ((sortDown (e :: ns)).take (n + 1))
        = e + Counting.sum (sortDown ns) := by
      have sorted := insertDown_perm e (sortDown ns)
      rw [sortDown, List.take_of_length_le]
      · exact sorted.foldr_eq 0
      · exact Nat.le_of_eq (by rw [sorted.length_eq, List.length_cons, perm.length_eq, all])
    rw [largest_of_le (Nat.succ_le_succ fits), largest_of_le fits, whole,
      largest_of_outside (by omega), List.take_of_length_le (by rw [perm.length_eq]; omega),
      OpCount.plus_eq, OpCount.some_and_some, OpCount.or_none, Int.add_comm]
  · rw [largest_of_outside (by rw [List.length_cons]; omega), largest_of_outside (by omega),
      largest_of_outside (by omega)]
    rfl

theorem largest_cons (need e : Int) (ns : List Int) :
    largest need (e :: ns) = OpCount.or ((largest (need - 1) ns).plus e) (largest need ns) := by
  rcases Int.lt_trichotomy need 0 with negative | rfl | positive
  · rw [largest_of_outside (.inl negative), largest_of_outside (.inl negative),
      largest_of_outside (.inl (by omega))]
    rfl
  · rw [largest_zero, largest_zero, largest_of_outside (.inl (by omega))]
    rfl
  · obtain ⟨n, rfl⟩ : ∃ n : Nat, need = (n + 1 : Nat) := ⟨(need - 1).toNat, by omega⟩
    have before : ((n + 1 : Nat) : Int) - 1 = n := by omega
    rw [before]
    exact largest_succ_cons n e ns

/-! ## Thresholds -/

/-- The most operations of all the ways to satisfy exactly `k` of the parts and to dissatisfy the
others: the first part is either among the `k` or not. -/
def mostOps (k : Int) : List (Cost Int) → OpCount Int
  | [] => if k = 0 then some 0 else none
  | c :: rest =>
    OpCount.or (OpCount.and c.satOps (mostOps (k - 1) rest)) (OpCount.and c.dissatOps (mostOps k rest))

theorem thresholdSat_eq_and (k : Int) (subs : List (Cost Int)) :
    thresholdSat k subs =
      OpCount.and (baseOps subs) (largest (k - forcedSubs subs) (extraOps subs)) := by
  simp only [thresholdSat, needOps, largest, OpCount.plus_eq]
  split
  · rw [OpCount.and_none]
  · rfl

theorem baseOps_cons (c : Cost Int) (rest : List (Cost Int)) :
    baseOps (c :: rest) =
      OpCount.and (if c.dissatOps.isSome then c.dissatOps else c.satOps) (baseOps rest) := by
  simp only [baseOps, List.foldl_cons, Counting.ofInt_int, OpCount.zero_and]
  exact OpCount.foldl_and _ _ rest

theorem forcedSubs_cons (c : Cost Int) (rest : List (Cost Int)) :
    forcedSubs (c :: rest) = forcedSubs rest + if c.dissatOps.isNone then 1 else 0 :=
  List.countP_cons

theorem extraOps_cons_of_sat {c : Cost Int} (none : c.satOps = none) (rest : List (Cost Int)) :
    extraOps (c :: rest) = extraOps rest := by
  simp [extraOps, none]

theorem extraOps_cons_of_dissat {c : Cost Int} (none : c.dissatOps = none)
    (rest : List (Cost Int)) : extraOps (c :: rest) = extraOps rest := by
  simp [extraOps, none]

theorem extraOps_cons_of_both {c : Cost Int} {s d : Int} (sat : c.satOps = some s)
    (dissat : c.dissatOps = some d) (rest : List (Cost Int)) :
    extraOps (c :: rest) = (s - d) :: extraOps rest := by
  simp [extraOps, sat, dissat]

/-- The largest differences are added in the most expensive way to satisfy exactly `k` parts. -/
theorem thresholdSat_eq_mostOps (k : Int) (subs : List (Cost Int)) :
    thresholdSat k subs = mostOps k subs := by
  induction subs generalizing k with
  | nil =>
    rw [thresholdSat_eq_and, mostOps, extraOps, List.filterMap_nil, largest_nil, forcedSubs,
      List.countP_nil, Int.natCast_zero, Int.sub_zero]
    exact OpCount.zero_and _
  | cons c rest ih =>
    rw [mostOps, ← ih, ← ih, thresholdSat_eq_and, thresholdSat_eq_and, thresholdSat_eq_and,
      baseOps_cons, forcedSubs_cons]
    cases sat : c.satOps with
    | none =>
      rw [extraOps_cons_of_sat sat]
      cases dissat : c.dissatOps with
      | none => simp
      | some d => simp [OpCount.and_assoc]
    | some s =>
      cases dissat : c.dissatOps with
      | none =>
        have fewer : k - (forcedSubs rest + 1 : Int) = k - 1 - forcedSubs rest := by omega
        rw [extraOps_cons_of_dissat dissat]
        simp [OpCount.and_assoc, fewer]
      | some d =>
        have fewer : k - forcedSubs rest - 1 = k - 1 - forcedSubs rest := by omega
        rw [extraOps_cons_of_both sat dissat, largest_cons]
        simp [OpCount.and_assoc, OpCount.and_or, OpCount.and_plus_sub, fewer]

theorem mostOps_of_neg {k : Int} (negative : k < 0) (subs : List (Cost Int)) :
    mostOps k subs = none := by
  induction subs generalizing k with
  | nil => exact if_neg (by omega)
  | cons c rest ih => rw [mostOps, ih negative, ih (by omega)]; simp

/-- To satisfy none of the parts is to dissatisfy them all. -/
theorem mostOps_zero (subs : List (Cost Int)) :
    mostOps 0 subs = subs.foldl (fun n c => OpCount.and n c.dissatOps) (some 0) := by
  induction subs with
  | nil => rfl
  | cons c rest ih =>
    rw [mostOps, mostOps_of_neg (by decide), ih, OpCount.and_none, OpCount.none_or, List.foldl_cons,
      OpCount.zero_and, ← OpCount.foldl_and]

theorem satOps_threshold (k n : Int) (subs : List (Cost Int)) :
    (threshold k n subs).satOps = (mostOps k subs).plus n := by
  rw [threshold, thresholdSat_eq_mostOps]

theorem dissatOps_threshold (k n : Int) (subs : List (Cost Int)) :
    (threshold k n subs).dissatOps = (mostOps 0 subs).plus n := by
  rw [mostOps_zero]
  rfl

end Cost

end LockScript
