import LockScript.Proofs.Typing.Wrapping
import Mathlib.Order.Bounds.Defs

/-!
The most operations of a threshold.

A way to satisfy a threshold chooses the parts to satisfy, exactly as many as are asked for, and
dissatisfies the others. The count of a threshold goes through no choices, but it has the most
operations of any (`isGreatest_mostOps`), and has none just where there is no choice.

This is about exact counts. Stored counts are words, and sums of words wrap around: what comes out
is the exact count up to that, as long as the differences that are put in order are words themselves
(`satOps_threshold_words`). Counts from zero on always have such differences. Where a difference
wraps around, the order is wrong, and so may be the choice.
-/

namespace LockScript

namespace OpCount

variable {a b : OpCount Int} {n : Int}

theorem and_eq_some_iff :
    OpCount.and a b = some n ↔ ∃ i j, a = some i ∧ b = some j ∧ n = i + j := by
  cases a <;> cases b <;> simp [eq_comm]

theorem eq_some_of_or (either : OpCount.or a b = some n) : a = some n ∨ b = some n := by
  cases a with
  | none => exact .inr (by simpa using either)
  | some i =>
    cases b with
    | none => exact .inl (by simpa using either)
    | some j =>
      rw [some_or_some, Option.some.injEq] at either
      rw [Option.some.injEq, Option.some.injEq]
      omega

theorem exists_or_of_left (left : a = some n) : ∃ m, OpCount.or a b = some m ∧ n ≤ m := by
  subst left
  cases b with
  | none => exact ⟨n, by simp, Int.le_refl n⟩
  | some j => exact ⟨max n j, by simp, Int.le_max_left n j⟩

theorem exists_or_of_right (right : b = some n) : ∃ m, OpCount.or a b = some m ∧ n ≤ m := by
  subst right
  cases a with
  | none => exact ⟨n, by simp, Int.le_refl n⟩
  | some i => exact ⟨max i n, by simp, Int.le_max_right i n⟩

end OpCount

namespace Cost

/-! ## Choices -/

section Choices

variable {k total s d : Int} {c : Cost Int} {subs rest : List (Cost Int)}

/-- The operations of satisfying the parts that are marked and dissatisfying the others. -/
def choiceOps (choice : List Bool) (subs : List (Cost Int)) : OpCount Int :=
  (List.zipWith (fun sat c => if sat then c.satOps else c.dissatOps) choice subs).foldr
    OpCount.and (some 0)

/-- There is a choice of exactly `k` parts with `total` operations. -/
def Affords (k : Int) (subs : List (Cost Int)) (total : Int) : Prop :=
  ∃ choice : List Bool, choice.length = subs.length ∧ (choice.count true : Int) = k ∧
    choiceOps choice subs = some total

theorem affords_nil : Affords k [] total ↔ k = 0 ∧ total = 0 := by
  constructor
  · rintro ⟨choice, length, count, ops⟩
    obtain rfl := List.length_eq_zero_iff.1 length
    exact ⟨count.symm, (Option.some.inj ops).symm⟩
  · rintro ⟨rfl, rfl⟩
    exact ⟨[], rfl, rfl, rfl⟩

theorem Affords.satisfy (sat : c.satOps = some s) (others : Affords (k - 1) rest total) :
    Affords k (c :: rest) (s + total) := by
  obtain ⟨choice, length, count, ops⟩ := others
  refine ⟨true :: choice, congrArg (· + 1) length, ?_, ?_⟩
  · rw [List.count_cons_self]
    omega
  · exact OpCount.and_eq_some_iff.2 ⟨s, total, sat, ops, rfl⟩

theorem Affords.dissatisfy (dissat : c.dissatOps = some d) (others : Affords k rest total) :
    Affords k (c :: rest) (d + total) := by
  obtain ⟨choice, length, count, ops⟩ := others
  refine ⟨false :: choice, congrArg (· + 1) length, ?_, ?_⟩
  · rw [List.count_cons_of_ne Bool.false_ne_true]
    exact count
  · exact OpCount.and_eq_some_iff.2 ⟨d, total, dissat, ops, rfl⟩

/-- The first part is either satisfied or dissatisfied. -/
theorem Affords.first (affords : Affords k (c :: rest) total) :
    (∃ s t, c.satOps = some s ∧ Affords (k - 1) rest t ∧ total = s + t) ∨
      ∃ d t, c.dissatOps = some d ∧ Affords k rest t ∧ total = d + t := by
  obtain ⟨choice, length, count, ops⟩ := affords
  cases choice with
  | nil => cases length
  | cons sat choice =>
    rw [List.length_cons, List.length_cons, Nat.succ.injEq] at length
    obtain ⟨first, t, own, others, sum⟩ := OpCount.and_eq_some_iff.1 ops
    cases sat with
    | true =>
      rw [List.count_cons_self] at count
      exact .inl ⟨first, t, own, ⟨choice, length, by omega, others⟩, sum⟩
    | false =>
      rw [List.count_cons_of_ne Bool.false_ne_true] at count
      exact .inr ⟨first, t, own, ⟨choice, length, count, others⟩, sum⟩

/-- The most operations are those of a choice. -/
theorem affords_of_mostOps (most : mostOps k subs = some total) : Affords k subs total := by
  induction subs generalizing k total with
  | nil =>
    rw [mostOps] at most
    split at most
    · next none => exact affords_nil.2 ⟨none, (Option.some.inj most).symm⟩
    · cases most
  | cons c rest ih =>
    rcases OpCount.eq_some_of_or most with taken | left
    · obtain ⟨s, t, sat, others, rfl⟩ := OpCount.and_eq_some_iff.1 taken
      exact .satisfy sat (ih others)
    · obtain ⟨d, t, dissat, others, rfl⟩ := OpCount.and_eq_some_iff.1 left
      exact .dissatisfy dissat (ih others)

/-- No choice has more. -/
theorem Affords.le_mostOps (affords : Affords k subs total) :
    ∃ most, mostOps k subs = some most ∧ total ≤ most := by
  induction subs generalizing k total with
  | nil =>
    obtain ⟨rfl, rfl⟩ := affords_nil.1 affords
    exact ⟨0, rfl, Int.le_refl 0⟩
  | cons c rest ih =>
    rcases affords.first with ⟨s, t, sat, others, rfl⟩ | ⟨d, t, dissat, others, rfl⟩
    · obtain ⟨m, most, le⟩ := ih others
      have taken := OpCount.and_eq_some_iff.2 ⟨s, m, sat, most, rfl⟩
      obtain ⟨n, all, above⟩ := OpCount.exists_or_of_left taken
      exact ⟨n, all, by omega⟩
    · obtain ⟨m, most, le⟩ := ih others
      have left := OpCount.and_eq_some_iff.2 ⟨d, m, dissat, most, rfl⟩
      obtain ⟨n, all, above⟩ := OpCount.exists_or_of_right left
      exact ⟨n, all, by omega⟩

theorem isGreatest_mostOps (most : mostOps k subs = some total) :
    IsGreatest {t | Affords k subs t} total := by
  refine ⟨affords_of_mostOps most, fun t affords => ?_⟩
  obtain ⟨m, same, le⟩ := affords.le_mostOps
  rw [most, Option.some.injEq] at same
  omega

theorem isSome_mostOps_iff : (mostOps k subs).isSome = true ↔ ∃ t, Affords k subs t := by
  rw [Option.isSome_iff_exists]
  constructor
  · rintro ⟨t, most⟩
    exact ⟨t, affords_of_mostOps most⟩
  · rintro ⟨t, affords⟩
    obtain ⟨m, most, -⟩ := affords.le_mostOps
    exact ⟨m, most⟩

/-- To choose none of the parts is to dissatisfy them all. -/
theorem mostOps_zero_eq_some_iff :
    mostOps 0 subs = some total ↔
      ∃ ns, subs.map dissatOps = ns.map some ∧ total = Counting.sum ns := by
  induction subs generalizing total with
  | nil =>
    constructor
    · intro none
      exact ⟨[], rfl, (Option.some.inj none).symm⟩
    · rintro ⟨ns, same, rfl⟩
      obtain rfl := List.map_eq_nil_iff.1 same.symm
      rfl
  | cons c rest ih =>
    rw [mostOps, mostOps_of_neg (by decide), OpCount.and_none, OpCount.none_or,
      OpCount.and_eq_some_iff]
    constructor
    · rintro ⟨d, t, dissat, others, rfl⟩
      obtain ⟨ns, same, rfl⟩ := ih.1 others
      exact ⟨d :: ns, by rw [List.map_cons, List.map_cons, dissat, same], rfl⟩
    · rintro ⟨ns, same, rfl⟩
      cases ns with
      | nil => cases same
      | cons d ns =>
        rw [List.map_cons, List.map_cons, List.cons.injEq] at same
        exact ⟨d, _, same.1, ih.2 ⟨ns, same.2, rfl⟩, rfl⟩

theorem isSome_mostOps_zero_iff :
    (mostOps 0 subs).isSome = true ↔ ∀ c ∈ subs, c.dissatOps.isSome = true := by
  induction subs with
  | nil => simp [mostOps]
  | cons c rest ih =>
    rw [mostOps, mostOps_of_neg (by decide), OpCount.and_none, OpCount.none_or,
      List.forall_mem_cons, ← ih]
    cases c.dissatOps <;> cases mostOps 0 rest <;> simp

end Choices

/-! ## Words -/

section Words

variable {subs : List (Cost Int64)}

theorem forcedSubs_add_length_extraOps_le (subs : List (Cost Int64)) :
    forcedSubs subs + (extraOps subs).length ≤ subs.length := by
  induction subs with
  | nil => exact Nat.le_refl 0
  | cons c rest ih =>
    rcases c with ⟨_, _, _, _, _ | s, _ | d⟩ <;> simp [forcedSubs, extraOps] at ih ⊢ <;> omega

/-- The number of parts that are still needed may as well be a word: it is the same, or it is negative
and wraps around to more than there are. -/
theorem needOps_words (k : Int64) (few : subs.length < 0x8000000000000000) :
    needOps (k - Int64.ofInt (forcedSubs subs)).toInt subs = thresholdSat k.toInt subs := by
  have parts := forcedSubs_add_length_extraOps_le subs
  have low := Int64.le_toInt k
  have high := Int64.toInt_lt k
  have forced : (Int64.ofInt (forcedSubs subs)).toInt = forcedSubs subs :=
    Int64.toInt_ofInt_of_le (by omega) (by omega)
  simp only [thresholdSat, needOps, Int64.toInt_sub, forced]
  by_cases wraps : k.toInt - forcedSubs subs < -0x8000000000000000
  · rw [← Int.add_bmod_right, Int.bmod_eq_of_le (by omega) (by omega), if_pos (by omega),
      if_pos (by omega)]
  · rw [Int.bmod_eq_of_le (by omega) (by omega)]

theorem satOps_threshold_words (k : Int) (comparable : ∀ c ∈ subs, c.Comparable) :
    (threshold k (Int64.ofInt subs.length) subs).satOps =
      ((mostOps k (subs.map exact)).plus (subs.length : Int)).map Int64.ofInt := by
  rw [OpCount.plus_eq, OpCount.map_ofInt_and, ← thresholdSat_eq_mostOps,
    ← thresholdSat_words k comparable]
  rfl

theorem dissatOps_threshold_words (k : Int) (subs : List (Cost Int64)) :
    (threshold k (Int64.ofInt subs.length) subs).dissatOps =
      ((mostOps 0 (subs.map exact)).plus (subs.length : Int)).map Int64.ofInt := by
  rw [OpCount.plus_eq, OpCount.map_ofInt_and, mostOps_zero,
    map_ofInt_foldl dissatOps dissatOps dissatOps_exact]
  rfl

end Words

/-! ## Thresholds -/

section Thresholds

variable {ν : Type} [Counting ν] {k : Int} {subs : List (Cost Int)} {ops : OpCount ν}

/-- The operations of a threshold that satisfies exactly `k` of the parts: those of a choice with
the most, and one for each part to add up. -/
structure CountsMost (k : Int) (subs : List (Cost Int)) (ops : OpCount ν) : Prop where
  isSome_iff : ops.isSome = true ↔ ∃ total, Affords k subs total
  most : ∀ n ∈ ops, ∃ total, IsGreatest {t | Affords k subs t} total ∧
    n = Counting.ofInt (subs.length + total)

/-- The operations of a threshold that dissatisfies every part. -/
structure CountsAll (subs : List (Cost Int)) (ops : OpCount ν) : Prop where
  isSome_iff : ops.isSome = true ↔ ∀ c ∈ subs, c.dissatOps.isSome = true
  all : ∀ n ∈ ops, ∃ ns, subs.map dissatOps = ns.map some ∧
    n = Counting.ofInt (subs.length + Counting.sum ns)

theorem countsMost_of_eq
    (same : ops = ((mostOps k subs).plus (subs.length : Int)).map Counting.ofInt) :
    CountsMost k subs ops := by
  subst same
  constructor
  · rw [Option.isSome_map, OpCount.isSome_plus, isSome_mostOps_iff]
  · intro n member
    obtain ⟨m, plus, rfl⟩ := Option.map_eq_some_iff.1 member
    obtain ⟨total, length, most, ⟨⟩, rfl⟩ := OpCount.and_eq_some_iff.1 plus
    exact ⟨total, isGreatest_mostOps most, by rw [Int.add_comm]⟩

theorem countsAll_of_eq
    (same : ops = ((mostOps 0 subs).plus (subs.length : Int)).map Counting.ofInt) :
    CountsAll subs ops := by
  subst same
  constructor
  · rw [Option.isSome_map, OpCount.isSome_plus, isSome_mostOps_zero_iff]
  · intro n member
    obtain ⟨m, plus, rfl⟩ := Option.map_eq_some_iff.1 member
    obtain ⟨total, length, every, ⟨⟩, rfl⟩ := OpCount.and_eq_some_iff.1 plus
    obtain ⟨ns, same, rfl⟩ := mostOps_zero_eq_some_iff.1 every
    exact ⟨ns, same, by rw [Int.add_comm]⟩

/-- Counted exactly, a threshold can be satisfied just if exactly `k` parts can be chosen, each of
which can be satisfied while each of the others can be dissatisfied, and then has the most
operations of all such choices; it can be dissatisfied just if every part can, and then has their
operations together. Where the counts are words and are added up as words, the same choices are
possible and the same dissatisfaction is counted, up to wrapping around, and so is the most of all
choices if the differences between satisfying and dissatisfying a part are words. The number of
parts that are still needed may then be a word as well. -/
theorem threshold_takes_most (k : Int) (subs : List (Cost Int)) :
    CountsMost k subs (threshold k (subs.length : Int) subs).satOps ∧
      CountsAll subs (threshold k (subs.length : Int) subs).dissatOps ∧
      ∀ stored : List (Cost Int64), stored.map exact = subs →
        ((threshold k (Int64.ofInt stored.length) stored).satOps.isSome = true ↔
          ∃ total, Affords k subs total) ∧
        ((∀ c ∈ stored, c.Comparable) →
          CountsMost k subs (threshold k (Int64.ofInt stored.length) stored).satOps) ∧
        CountsAll subs (threshold k (Int64.ofInt stored.length) stored).dissatOps ∧
        ∀ word : Int64, word.toInt = k → stored.length < 0x8000000000000000 →
          needOps (word - Int64.ofInt (forcedSubs stored)).toInt stored
            = thresholdSat k stored := by
  refine ⟨?_, ?_, ?_⟩
  · exact countsMost_of_eq ((satOps_threshold k _ subs).trans (congrFun Option.map_id _).symm)
  · exact countsAll_of_eq ((dissatOps_threshold k _ subs).trans (congrFun Option.map_id _).symm)
  · rintro stored rfl
    refine ⟨?_, fun comparable => countsMost_of_eq ?_, countsAll_of_eq ?_, ?_⟩
    · rw [← isSome_mostOps_iff, ← thresholdSat_eq_mostOps, ← isSome_thresholdSat_words]
      exact Eq.congr_left (OpCount.isSome_plus _ _)
    · rw [List.length_map]
      exact satOps_threshold_words k comparable
    · rw [List.length_map]
      exact dissatOps_threshold_words k stored
    · rintro word rfl few
      exact needOps_words word few

/-- A part that can be both, one that has to be satisfied, one that has to be dissatisfied, and one
that is cheaper to satisfy. -/
def mixedParts : List (Cost Int64) :=
  [⟨.safe, 1, false, 0, some 5, some 2⟩, ⟨.safe, 1, false, 0, some 3, none⟩,
    ⟨.safe, 1, false, 0, none, some 1⟩, ⟨.safe, 1, false, 0, some 1, some 4⟩]

/-- Two of these are best the first and the second. -/
theorem threshold_takes_most_mixedParts :
    (∀ c ∈ mixedParts, c.Comparable) ∧ (threshold 2 4 mixedParts).satOps = some 17 ∧
      ∃ total, IsGreatest {t | Affords 2 (mixedParts.map exact) t} total ∧
        17 = Int64.ofInt (4 + total) := by
  have comparable : ∀ c ∈ mixedParts, c.Comparable := by
    simp only [mixedParts, List.forall_mem_cons, List.not_mem_nil, false_implies, implies_true,
      and_true]
    refine ⟨?_, ?_, ?_, ?_⟩ <;> exact comparable_of_nonneg (by simp) (by simp)
  have ops : (threshold 2 4 mixedParts).satOps = some 17 := by decide
  obtain ⟨-, -, words⟩ := threshold_takes_most 2 (mixedParts.map exact)
  obtain ⟨-, counts, -⟩ := words mixedParts rfl
  exact ⟨comparable, ops, (counts comparable).most 17 ops⟩

/-- A part whose counts are too far apart for their difference to be a word, and one that is free.
-/
def distantParts : List (Cost Int64) :=
  [⟨.safe, 1, false, 0, some 0x4000000000000000, some (-0x4000000000000000)⟩,
    ⟨.safe, 1, false, 0, some 0, some 0⟩]

/-- Satisfying the first part adds the most, but the difference wraps around, and the second part is
chosen in its place. -/
theorem threshold_distantParts :
    (threshold 1 2 distantParts).satOps = some (2 - 0x4000000000000000) ∧
      IsGreatest {t | Affords 1 (distantParts.map exact) t} 0x4000000000000000 ∧
      ¬ CountsMost 1 (distantParts.map exact) (threshold 1 2 distantParts).satOps := by
  have ops : (threshold 1 2 distantParts).satOps = some (2 - 0x4000000000000000) := by decide
  have greatest : IsGreatest {t | Affords 1 (distantParts.map exact) t} 0x4000000000000000 :=
    isGreatest_mostOps (by decide)
  refine ⟨ops, greatest, fun counts => ?_⟩
  obtain ⟨total, own, same⟩ := counts.most _ ops
  rw [Int.le_antisymm (greatest.2 own.1) (own.2 greatest.1)] at same
  exact absurd same (by decide)

end Thresholds

end Cost

end LockScript
