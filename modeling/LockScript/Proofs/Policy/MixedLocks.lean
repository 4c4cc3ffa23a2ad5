import LockScript.Policy.TimeLock
import LockScript.Proofs.Policy.NormalForm

/-!
Lock times that are needed together.

A way to meet a policy selects exactly as many branches of each threshold as it asks for, and the
conditions of those (`selections`). The check for mixed lock times goes through no selections: it
knows of each branch only which sorts of lock times it uses and whether it mixes them, and takes the
branches of a threshold in pairs. This is enough. What is selected together comes from one branch or
from two (`mixed_of_mem_selections`), and any two branches can be selected together where two are
needed, since a selection of fewer branches is part of one of more
(`exists_mem_selectionsOf_of_le`).
-/

namespace LockScript

/-! ## Sorts of lock times -/

/-- A sort of lock time: relative or absolute, a time or a number of blocks. -/
structure LockSort where
  isRelative : Bool
  isTime : Bool
  deriving DecidableEq

namespace LockSort

/-- The sort of lock time of a condition. -/
def of? : Condition → Option LockSort
  | .older lock => some ⟨true, Condition.isRelativeTime lock⟩
  | .after lock => some ⟨false, Condition.isAbsoluteTime lock⟩
  | _ => none

/-- The same kind of lock time in the other unit. -/
def other (s : LockSort) : LockSort := ⟨s.isRelative, !s.isTime⟩

theorem other_other (s : LockSort) : s.other.other = s := by
  rcases s with ⟨_, _ | _⟩ <;> rfl

/-- A lock time of this sort is among the conditions. -/
def Among (s : LockSort) (chosen : List Condition) : Prop := ∃ c ∈ chosen, of? c = some s

theorem Among.mono {s : LockSort} {chosen more : List Condition} (among : s.Among chosen)
    (subset : chosen ⊆ more) : s.Among more :=
  among.imp fun _ => .imp_left (subset ·)

theorem among_append {s : LockSort} {first others : List Condition} :
    s.Among (first ++ others) ↔ s.Among first ∨ s.Among others := by
  simp [Among, or_and_right, exists_or]

/-- Both a lock time in blocks and one in time are among the conditions, and both are relative or
both are absolute. -/
def Mixed (chosen : List Condition) : Prop :=
  ∃ isRelative, Among ⟨isRelative, false⟩ chosen ∧ Among ⟨isRelative, true⟩ chosen

theorem mixed_iff {chosen : List Condition} :
    Mixed chosen ↔ ∃ s : LockSort, s.Among chosen ∧ s.other.Among chosen := by
  constructor
  · rintro ⟨isRelative, height, time⟩
    exact ⟨_, height, time⟩
  · rintro ⟨⟨isRelative, isTime⟩, own, other⟩
    cases isTime with
    | false => exact ⟨isRelative, own, other⟩
    | true => exact ⟨isRelative, other, own⟩

theorem Mixed.mono {chosen more : List Condition} (mixed : Mixed chosen) (subset : chosen ⊆ more) :
    Mixed more :=
  mixed.imp fun _ => .imp (Among.mono · subset) (Among.mono · subset)

end LockSort

/-! ## Uses -/

namespace LockUse

/-- Whether lock times of this sort are used. -/
def has (u : LockUse) : LockSort → Bool
  | ⟨true, false⟩ => u.olderHeight
  | ⟨true, true⟩ => u.olderTime
  | ⟨false, false⟩ => u.afterHeight
  | ⟨false, true⟩ => u.afterTime

theorem has_either (a b : LockUse) (s : LockSort) : (a.either b).has s = (a.has s || b.has s) := by
  rcases s with ⟨_ | _, _ | _⟩ <;> rfl

theorem has_ofCondition {c : Condition} {s : LockSort} :
    (ofCondition c).has s = true ↔ LockSort.of? c = some s := by
  rcases s with ⟨_ | _, _ | _⟩
  all_goals
    cases c with
    | older lock =>
      cases time : Condition.isRelativeTime lock <;> simp [ofCondition, LockSort.of?, has, time]
    | after lock =>
      cases time : Condition.isAbsoluteTime lock <;> simp [ofCondition, LockSort.of?, has, time]
    | _ => simp [ofCondition, LockSort.of?, has]

theorem mixed_ofCondition (c : Condition) : (ofCondition c).mixed = false := by
  cases c with
  | older lock => cases time : Condition.isRelativeTime lock <;> simp [ofCondition, time]
  | after lock => cases time : Condition.isAbsoluteTime lock <;> simp [ofCondition, time]
  | _ => rfl

/-- Two uses clash if one is mixed or they use the two units of a kind of lock time. -/
theorem clash_iff {a b : LockUse} :
    a.clash b = true ↔
      a.mixed = true ∨ b.mixed = true ∨ ∃ s, a.has s = true ∧ b.has s.other = true := by
  simp only [clash, Bool.or_eq_true, Bool.and_eq_true, or_assoc]
  constructor
  · rintro (own | own | both | both | both | both)
    · exact .inl own
    · exact .inr (.inl own)
    · exact .inr (.inr ⟨⟨true, false⟩, both⟩)
    · exact .inr (.inr ⟨⟨true, true⟩, both⟩)
    · exact .inr (.inr ⟨⟨false, false⟩, both⟩)
    · exact .inr (.inr ⟨⟨false, true⟩, both⟩)
  · rintro (own | own | ⟨⟨_ | _, _ | _⟩, both⟩)
    · exact .inl own
    · exact .inr (.inl own)
    · exact .inr (.inr (.inr (.inr (.inl both))))
    · exact .inr (.inr (.inr (.inr (.inr both))))
    · exact .inr (.inr (.inl both))
    · exact .inr (.inr (.inr (.inl both)))

theorem anyClash_cons {a : LockUse} {rest : List LockUse} :
    anyClash (a :: rest) = true ↔ (∃ b ∈ rest, a.clash b = true) ∨ anyClash rest = true := by
  rw [anyClash, Bool.or_eq_true, List.any_eq_true]

theorem has_foldl (start : LockUse) (uses : List LockUse) (s : LockSort) :
    (uses.foldl either start).has s = (start.has s || uses.any (has · s)) := by
  induction uses generalizing start with
  | nil => rw [List.foldl_nil, List.any_nil, Bool.or_false]
  | cons a rest ih => rw [List.foldl_cons, ih, has_either, List.any_cons, Bool.or_assoc]

theorem mixed_foldl (start : LockUse) (uses : List LockUse) :
    (uses.foldl either start).mixed = (start.mixed || uses.any mixed) := by
  induction uses generalizing start with
  | nil => rw [List.foldl_nil, List.any_nil, Bool.or_false]
  | cons a rest ih => rw [List.foldl_cons, ih, List.any_cons, ← Bool.or_assoc]; rfl

/-- A threshold uses what its branches use. -/
theorem has_ofThreshold (k : Int) (uses : List LockUse) (s : LockSort) :
    (ofThreshold k uses).has s = uses.any (has · s) := by
  have none : has {} s = false := by rcases s with ⟨_ | _, _ | _⟩ <;> rfl
  have same : (ofThreshold k uses).has s = (uses.foldl either {}).has s := by
    rw [ofThreshold]
    split
    · rfl
    · rcases s with ⟨_ | _, _ | _⟩ <;> rfl
  rw [same, has_foldl, none, Bool.false_or]

/-- A threshold is mixed if a branch is, or if it needs two branches and some two of them clash. -/
theorem mixed_ofThreshold {k : Int} {uses : List LockUse} :
    (ofThreshold k uses).mixed = true ↔
      uses.any mixed = true ∨ 2 ≤ k ∧ anyClash uses = true := by
  have all : (uses.foldl either {}).mixed = uses.any mixed := by
    rw [mixed_foldl, Bool.false_or]
  rw [ofThreshold, ← all]
  split
  · next fewer => simp [Int.not_le.2 fewer]
  · next more => simp [Int.not_lt.1 more]

end LockUse

/-! ## Selections -/

namespace Policy

mutual

/-- The conditions that are selected in each way to take exactly as many branches of every threshold
as it asks for. -/
def selections : Policy → List (List Condition)
  | .leaf c _ => [[c]]
  | .threshold k branches => selectionsOf k branches

/-- The conditions that are selected in each way to take exactly `k` of the policies. -/
def selectionsOf (k : Int) : List Policy → List (List Condition)
  | [] => if k = 0 then [[]] else []
  | p :: rest =>
    (p.selections.flatMap fun first => (selectionsOf (k - 1) rest).map (first ++ ·)) ++
      selectionsOf k rest

end

variable {k j : Int} {p : Policy} {ps rest : List Policy} {chosen : List Condition} {s : LockSort}

theorem mem_selectionsOf_nil : chosen ∈ selectionsOf k [] ↔ k = 0 ∧ chosen = [] := by
  rw [selectionsOf]
  split
  · next none => simp [none]
  · next some => simp [some]

/-- The first policy is taken or not. -/
theorem mem_selectionsOf_cons :
    chosen ∈ selectionsOf k (p :: rest) ↔
      (∃ first ∈ p.selections, ∃ others ∈ selectionsOf (k - 1) rest, chosen = first ++ others) ∨
        chosen ∈ selectionsOf k rest := by
  simp [selectionsOf, eq_comm]

theorem bounds_of_mem_selectionsOf (member : chosen ∈ selectionsOf k ps) :
    0 ≤ k ∧ k ≤ ps.length := by
  induction ps generalizing k chosen with
  | nil =>
    obtain ⟨rfl, -⟩ := mem_selectionsOf_nil.1 member
    exact ⟨Int.le_refl 0, Int.le_refl 0⟩
  | cons p rest ih =>
    rw [List.length_cons]
    rcases mem_selectionsOf_cons.1 member with ⟨-, -, others, taken, -⟩ | left
    · have := ih taken
      omega
    · have := ih left
      omega

/-- What is selected comes from one of the policies, and one at least is taken for it. -/
theorem exists_of_mem_selectionsOf (member : chosen ∈ selectionsOf k ps) (among : s.Among chosen) :
    1 ≤ k ∧ ∃ p ∈ ps, ∃ own ∈ p.selections, s.Among own := by
  induction ps generalizing k chosen with
  | nil =>
    obtain ⟨-, rfl⟩ := mem_selectionsOf_nil.1 member
    obtain ⟨c, inside, -⟩ := among
    cases inside
  | cons p rest ih =>
    rcases mem_selectionsOf_cons.1 member with ⟨first, own, others, taken, rfl⟩ | left
    · have bounds := bounds_of_mem_selectionsOf taken
      rcases LockSort.among_append.1 among with among | among
      · exact ⟨by omega, p, List.mem_cons_self, first, own, among⟩
      · obtain ⟨-, q, inside, found⟩ := ih taken among
        exact ⟨by omega, q, List.mem_cons_of_mem p inside, found⟩
    · obtain ⟨some, q, inside, found⟩ := ih left among
      exact ⟨some, q, List.mem_cons_of_mem p inside, found⟩

/-! ## What the check finds is there, and what is there is found -/

theorem lockUses_eq_map (ps : List Policy) : lockUses ps = ps.map lockUse := by
  induction ps with
  | nil => rfl
  | cons p rest ih => rw [lockUses, ih, List.map_cons]

theorem has_lockUse_threshold {branches : List Policy} :
    (threshold k branches).lockUse.has s = true ↔ ∃ p ∈ branches, p.lockUse.has s = true := by
  rw [lockUse, lockUses_eq_map, LockUse.has_ofThreshold, List.any_map, List.any_eq_true]
  rfl

theorem mixed_lockUse_threshold {branches : List Policy} :
    (threshold k branches).lockUse.mixed = true ↔
      (∃ p ∈ branches, p.lockUse.mixed = true) ∨
        2 ≤ k ∧ LockUse.anyClash (branches.map lockUse) = true := by
  rw [lockUse, lockUses_eq_map, LockUse.mixed_ofThreshold, List.any_map, List.any_eq_true]
  rfl

/-- A sort of lock time that is selected is used. -/
theorem has_of_mem_selections (member : chosen ∈ p.selections) (among : s.Among chosen) :
    p.lockUse.has s = true := by
  induction p generalizing chosen with
  | leaf c attached =>
    obtain rfl := List.mem_singleton.1 member
    obtain ⟨c', inside, sort⟩ := among
    obtain rfl := List.mem_singleton.1 inside
    exact LockUse.has_ofCondition.2 sort
  | threshold k branches ih =>
    obtain ⟨-, q, inside, own, found, among⟩ := exists_of_mem_selectionsOf member among
    exact has_lockUse_threshold.2 ⟨q, inside, ih q inside found among⟩

/-- What is mixed in a selection of so many branches is mixed in one of them, or comes from two that
clash. -/
theorem mixed_of_mem_selectionsOf
    (each : ∀ p ∈ ps, ∀ own ∈ p.selections, LockSort.Mixed own → p.lockUse.mixed = true)
    (member : chosen ∈ selectionsOf k ps) (mixed : LockSort.Mixed chosen) :
    (∃ p ∈ ps, p.lockUse.mixed = true) ∨ 2 ≤ k ∧ LockUse.anyClash (ps.map lockUse) = true := by
  induction ps generalizing k chosen with
  | nil =>
    obtain ⟨-, rfl⟩ := mem_selectionsOf_nil.1 member
    obtain ⟨-, ⟨c, inside, -⟩, -⟩ := mixed
    cases inside
  | cons p rest ih =>
    obtain ⟨first, others⟩ := List.forall_mem_cons.1 each
    have later {k' : Int} (le : k' ≤ k)
        (found : (∃ q ∈ rest, q.lockUse.mixed = true) ∨
          2 ≤ k' ∧ LockUse.anyClash (rest.map lockUse) = true) :
        (∃ q ∈ p :: rest, q.lockUse.mixed = true) ∨
          2 ≤ k ∧ LockUse.anyClash ((p :: rest).map lockUse) = true := by
      rcases found with ⟨q, inside, own⟩ | ⟨two, clash⟩
      · exact .inl ⟨q, List.mem_cons_of_mem p inside, own⟩
      · exact .inr ⟨Int.le_trans two le, LockUse.anyClash_cons.2 (.inr clash)⟩
    rcases mem_selectionsOf_cons.1 member with ⟨part, own, tail, taken, rfl⟩ | left
    · -- The two units come from both sides of the first policy, or from the same side.
      have across {s : LockSort} (here : s.Among part) (there : s.other.Among tail) :
          2 ≤ k ∧ LockUse.anyClash ((p :: rest).map lockUse) = true := by
        obtain ⟨some, q, inside, own', found, among⟩ := exists_of_mem_selectionsOf taken there
        have clash := LockUse.clash_iff.2 (.inr (.inr
          ⟨s, has_of_mem_selections own here, has_of_mem_selections found among⟩))
        exact ⟨by omega, LockUse.anyClash_cons.2 (.inl ⟨_, List.mem_map_of_mem inside, clash⟩)⟩
      obtain ⟨s, among, among'⟩ := LockSort.mixed_iff.1 mixed
      rcases LockSort.among_append.1 among with here | there
      · rcases LockSort.among_append.1 among' with here' | there'
        · have both := first part own (LockSort.mixed_iff.2 ⟨s, here, here'⟩)
          exact .inl ⟨p, List.mem_cons_self, both⟩
        · exact .inr (across here there')
      · rcases LockSort.among_append.1 among' with here' | there'
        · exact .inr (across here' (s.other_other.symm ▸ there))
        · exact later (by omega) (ih others taken (LockSort.mixed_iff.2 ⟨s, there, there'⟩))
    · exact later (Int.le_refl k) (ih others left mixed)

theorem mixed_of_mem_selections (member : chosen ∈ p.selections) (mixed : LockSort.Mixed chosen) :
    p.lockUse.mixed = true := by
  induction p generalizing chosen with
  | leaf c attached =>
    obtain rfl := List.mem_singleton.1 member
    obtain ⟨isRelative, ⟨c', inside, height⟩, ⟨c'', inside', time⟩⟩ := mixed
    obtain rfl := List.mem_singleton.1 inside
    obtain rfl := List.mem_singleton.1 inside'
    rw [height, Option.some.injEq, LockSort.mk.injEq] at time
    cases time.2
  | threshold k branches ih =>
    exact mixed_lockUse_threshold.2
      (mixed_of_mem_selectionsOf (fun p inside _ => ih p inside) member mixed)

/-! ## Any two branches can be selected together -/

/-- Every threshold asks for one branch at least and for no more than it has. -/
inductive InBounds : Policy → Prop
  | leaf (c : Condition) (attached : List Policy) : InBounds (.leaf c attached)
  | threshold {k : Int} {branches : List Policy} (some : 1 ≤ k) (enough : k ≤ branches.length)
      (each : ∀ p ∈ branches, InBounds p) : InBounds (.threshold k branches)

theorem nil_mem_selectionsOf_zero (ps : List Policy) : [] ∈ selectionsOf 0 ps := by
  induction ps with
  | nil => exact mem_selectionsOf_nil.2 ⟨rfl, rfl⟩
  | cons p rest ih => exact mem_selectionsOf_cons.2 (.inr ih)

theorem mem_selectionsOf_one (inside : p ∈ ps) (own : chosen ∈ p.selections) :
    chosen ∈ selectionsOf 1 ps := by
  induction ps with
  | nil => cases inside
  | cons q rest ih =>
    rw [mem_selectionsOf_cons]
    rcases List.mem_cons.1 inside with rfl | later
    · exact .inl ⟨chosen, own, [], nil_mem_selectionsOf_zero rest, (List.append_nil chosen).symm⟩
    · exact .inr (ih later)

/-- A selection of fewer policies is part of one of more, as long as there are as many and each has
a selection. -/
theorem exists_mem_selectionsOf_of_le (each : ∀ p ∈ ps, ∃ own, own ∈ p.selections)
    (member : chosen ∈ selectionsOf j ps) (more : j ≤ k) (enough : k ≤ ps.length) :
    ∃ all ∈ selectionsOf k ps, chosen ⊆ all := by
  induction ps generalizing j k chosen with
  | nil =>
    have bounds := bounds_of_mem_selectionsOf member
    rw [List.length_nil] at enough
    obtain rfl : j = k := by omega
    exact ⟨chosen, member, List.Subset.refl chosen⟩
  | cons p rest ih =>
    obtain ⟨⟨own, first⟩, others⟩ := List.forall_mem_cons.1 each
    rw [List.length_cons] at enough
    rcases mem_selectionsOf_cons.1 member with ⟨part, taken, tail, inside, rfl⟩ | left
    · obtain ⟨all, found, subset⟩ := ih others inside (show j - 1 ≤ k - 1 by omega)
        (by omega)
      refine ⟨part ++ all, mem_selectionsOf_cons.2 (.inl ⟨part, taken, all, found, rfl⟩), ?_⟩
      exact List.append_subset.2 ⟨List.subset_append_left part all,
        List.subset_append_of_subset_right part subset⟩
    · have bounds := bounds_of_mem_selectionsOf left
      by_cases room : k ≤ rest.length
      · obtain ⟨all, found, subset⟩ := ih others left more room
        exact ⟨all, mem_selectionsOf_cons.2 (.inr found), subset⟩
      · obtain ⟨all, found, subset⟩ := ih others left (show j ≤ k - 1 by omega) (by omega)
        refine ⟨own ++ all, mem_selectionsOf_cons.2 (.inl ⟨own, first, all, found, rfl⟩), ?_⟩
        exact List.subset_append_of_subset_right own subset

theorem InBounds.exists_selection (inBounds : p.InBounds) : ∃ own, own ∈ p.selections := by
  induction inBounds with
  | leaf c attached => exact ⟨[c], List.mem_singleton_self _⟩
  | @threshold k branches some enough each ih =>
    obtain ⟨all, found, -⟩ := exists_mem_selectionsOf_of_le ih (nil_mem_selectionsOf_zero branches)
      (by omega) enough
    exact ⟨all, found⟩

/-- A sort of lock time that is used can be selected. -/
theorem InBounds.exists_among (inBounds : p.InBounds) (has : p.lockUse.has s = true) :
    ∃ chosen ∈ p.selections, s.Among chosen := by
  induction inBounds with
  | leaf c attached =>
    exact ⟨[c], List.mem_singleton_self _, c, List.mem_singleton_self _,
      LockUse.has_ofCondition.1 has⟩
  | @threshold k branches some enough each ih =>
    obtain ⟨q, inside, own⟩ := has_lockUse_threshold.1 has
    obtain ⟨part, found, among⟩ := ih q inside own
    have alone := mem_selectionsOf_one inside found
    obtain ⟨all, selected, subset⟩ := exists_mem_selectionsOf_of_le
      (fun p inside => (each p inside).exists_selection) alone some enough
    exact ⟨all, selected, among.mono subset⟩

/-- Two policies that clash are mixed in a selection of both. -/
theorem exists_mixed_of_anyClash (each : ∀ p ∈ ps, p.InBounds)
    (clash : LockUse.anyClash (ps.map lockUse) = true) :
    (∃ p ∈ ps, p.lockUse.mixed = true) ∨ ∃ chosen ∈ selectionsOf 2 ps, LockSort.Mixed chosen := by
  induction ps with
  | nil => cases clash
  | cons p rest ih =>
    obtain ⟨first, others⟩ := List.forall_mem_cons.1 each
    rw [List.map_cons, LockUse.anyClash_cons] at clash
    rcases clash with ⟨use, among, clash⟩ | clash
    · obtain ⟨q, inside, rfl⟩ := List.mem_map.1 among
      rcases LockUse.clash_iff.1 clash with own | own | ⟨s, has, has'⟩
      · exact .inl ⟨p, List.mem_cons_self, own⟩
      · exact .inl ⟨q, List.mem_cons_of_mem p inside, own⟩
      · obtain ⟨part, found, here⟩ := first.exists_among has
        obtain ⟨part', found', there⟩ := (others q inside).exists_among has'
        have both : part ++ part' ∈ selectionsOf 2 (p :: rest) := mem_selectionsOf_cons.2
          (.inl ⟨part, found, part', mem_selectionsOf_one inside found', rfl⟩)
        refine .inr ⟨part ++ part', both, LockSort.mixed_iff.2 ⟨s, ?_, ?_⟩⟩
        · exact LockSort.among_append.2 (.inl here)
        · exact LockSort.among_append.2 (.inr there)
    · rcases ih others clash with ⟨q, inside, own⟩ | ⟨chosen, found, mixed⟩
      · exact .inl ⟨q, List.mem_cons_of_mem p inside, own⟩
      · exact .inr ⟨chosen, mem_selectionsOf_cons.2 (.inr found), mixed⟩

/-- A policy that is found to be mixed has a selection that is. -/
theorem InBounds.exists_mixed (inBounds : p.InBounds) (mixed : p.lockUse.mixed = true) :
    ∃ chosen ∈ p.selections, LockSort.Mixed chosen := by
  induction inBounds with
  | leaf c attached =>
    rw [lockUse, LockUse.mixed_ofCondition] at mixed
    cases mixed
  | @threshold k branches some enough each ih =>
    -- A mixed selection of one branch or of two is part of one of `k`.
    have larger {j : Int} {chosen : List Condition} (member : chosen ∈ selectionsOf j branches)
        (more : j ≤ k) (mixed : LockSort.Mixed chosen) :
        ∃ chosen ∈ (Policy.threshold k branches).selections, LockSort.Mixed chosen := by
      obtain ⟨all, selected, subset⟩ := exists_mem_selectionsOf_of_le
        (fun p inside => (each p inside).exists_selection) member more enough
      exact ⟨all, selected, mixed.mono subset⟩
    have within {q : Policy} (inside : q ∈ branches) (own : q.lockUse.mixed = true) :
        ∃ chosen ∈ (Policy.threshold k branches).selections, LockSort.Mixed chosen := by
      obtain ⟨part, found, both⟩ := ih q inside own
      exact larger (mem_selectionsOf_one inside found) some both
    rcases mixed_lockUse_threshold.1 mixed with ⟨q, inside, own⟩ | ⟨two, clash⟩
    · exact within inside own
    · rcases exists_mixed_of_anyClash each clash with ⟨q, inside, own⟩ | ⟨chosen, found, both⟩
      · exact within inside own
      · exact larger found two both

theorem Reduced.inBounds (reduced : p.Reduced) : p.InBounds := by
  induction reduced with
  | leaf undecided => exact .leaf _ _
  | threshold some enough several each ih => exact .threshold some enough ih

theorem inBounds_normalized (p : Policy) : p.normalized.InBounds := by
  rcases isDecided_or_reduced_normalized p with decided | reduced
  · cases made : p.normalized with
    | leaf c attached => exact .leaf c attached
    | threshold k branches =>
      rw [made] at decided
      cases decided
  · exact reduced.inBounds

/-- The check for mixed lock times is exact. A policy whose thresholds ask for one branch at least
and for no more than they have, as those of a normal form do, is refused just if some selection of
exactly as many branches of each threshold as it asks for has both a lock time in blocks and one in
time, both relative or both absolute. -/
theorem checkLocks_exact (p : Policy) :
    p.normalized.InBounds ∧
      (p.InBounds →
        (p.checkLocks = .error ⟨p⟩ ↔ ∃ chosen ∈ p.selections, LockSort.Mixed chosen)) := by
  refine ⟨inBounds_normalized p, fun inBounds => ?_⟩
  have refused : p.checkLocks = .error ⟨p⟩ ↔ p.lockUse.mixed = true := by
    rw [checkLocks]
    split
    · next mixed => simp [mixed]
    · next pure => simp [pure]
  rw [refused]
  constructor
  · exact inBounds.exists_mixed
  · rintro ⟨chosen, member, mixed⟩
    exact mixed_of_mem_selections member mixed

/-- So many out of three: a relative lock time in blocks or an absolute one, a relative lock time in
time or a key, and another key. -/
def clocks (k : Int) : Policy :=
  .threshold k [.threshold 1 [.leaf (.older 5) [], .leaf (.after 9) []],
    .threshold 1 [.leaf (.older 0x400005) [], .leaf (.key (.named (utf8 "A"))) []],
    .leaf (.key (.named (utf8 "B"))) []]

/-- One out of three never needs both relative lock times, and two may. -/
theorem checkLocks_exact_clocks :
    ((clocks 1).InBounds ∧ (clocks 1).checkLocks = .ok () ∧
      ¬ ∃ chosen ∈ (clocks 1).selections, LockSort.Mixed chosen) ∧
    (clocks 2).InBounds ∧ [.older 5, .older 0x400005] ∈ (clocks 2).selections ∧
      (clocks 2).checkLocks = .error ⟨clocks 2⟩ := by
  have inBounds (k : Int) (some : 1 ≤ k) (enough : k ≤ 3) : (clocks k).InBounds := by
    refine .threshold some enough ?_
    simp only [List.forall_mem_cons, List.not_mem_nil, false_implies, implies_true, and_true]
    refine ⟨.threshold (by decide) (by decide) ?_, .threshold (by decide) (by decide) ?_,
      .leaf _ _⟩ <;> simp [InBounds.leaf]
  have one := inBounds 1 (by decide) (by decide)
  have two := inBounds 2 (by decide) (by decide)
  have accepted : (clocks 1).checkLocks = .ok () := by rfl
  have member : [.older 5, .older 0x400005] ∈ (clocks 2).selections := by decide
  have mixed : LockSort.Mixed [.older 5, .older 0x400005] :=
    ⟨true, ⟨.older 5, by decide, by decide⟩, ⟨.older 0x400005, by decide, by decide⟩⟩
  refine ⟨⟨one, accepted, fun selected => ?_⟩, two, member, ?_⟩
  · have refused := ((checkLocks_exact (clocks 1)).2 one).2 selected
    rw [accepted] at refused
    cases refused
  · exact ((checkLocks_exact (clocks 2)).2 two).2 ⟨_, member, mixed⟩

end Policy

end LockScript
