import LockScript.Proofs.Typing.Selection

/-!
The ways to satisfy or dissatisfy a fragment, and the operations they take.

A course is one way to do so by the book, given by the leaves that are run: a conjunction satisfies
both parts, a disjunction one of them, a threshold exactly as many as it asks for. The operations of
the script count whether they are run or not; a CHECKMULTISIG that is run counts its keys as well.
The cost of a fragment knows neither courses nor leaves. Still, counted exactly, it has the operations
of the most expensive course, and has none exactly where there is no course (`Fragment.exact`). It
follows that every count lies between the operations of the script and those of a course that runs
every leaf (`Fragment.bounded_cost`).
-/

namespace LockScript

/-! ## Courses -/

/-- The leaves that are run in one way to satisfy or dissatisfy a fragment. -/
abbrev Course := List Leaf

namespace Leaf

/-- The number of keys of a CHECKMULTISIG. -/
def multiKeys : Leaf → Nat
  | .multi _ keys => keys.length
  | _ => 0

/-- Whether there is a way to satisfy the leaf, or to dissatisfy it. -/
def canEnd : Leaf → (sat : Bool) → Bool
  | .zero, sat => !sat
  | .one, sat => sat
  | .after _, sat => sat
  | .older _, sat => sat
  | _, _ => true

end Leaf

namespace Course

/-- The number of keys of all CHECKMULTISIGs that are run. -/
def multiKeys (c : Course) : Nat := c.foldr (fun l n => l.multiKeys + n) 0

/-- One course and then another. -/
def inTurn (cs ds : List Course) : List Course := cs.flatMap fun c => ds.map (c ++ ·)

/-- The most keys of CHECKMULTISIGs that are run in one of the courses, if there is any. -/
def mostKeys (cs : List Course) : Option Nat := (cs.map multiKeys).max?

end Course

namespace Fragment

open Course (inTurn)

mutual

/-- The courses that satisfy a fragment, or those that dissatisfy it. -/
def courses : Fragment → (sat : Bool) → List Course
  | .leaf l, sat => if l.canEnd sat then [[l]] else []
  | .wrap .alt x, sat => x.courses sat
  | .wrap .swap x, sat => x.courses sat
  | .wrap .check x, sat => x.courses sat
  | .wrap .zeroNotEqual x, sat => x.courses sat
  | .wrap .dupIf x, sat => if sat then x.courses true else [[]]
  | .wrap .nonZero x, sat => if sat then x.courses true else [[]]
  | .wrap .verify x, sat => if sat then x.courses true else []
  | .pair .andV x y, sat => if sat then inTurn (x.courses true) (y.courses true) else []
  | .pair .andB x y, sat => inTurn (x.courses sat) (y.courses sat)
  | .pair .orB x z, sat =>
    if sat then
      inTurn (x.courses true) (z.courses false) ++ inTurn (x.courses false) (z.courses true)
    else inTurn (x.courses false) (z.courses false)
  | .pair .orC x z, sat =>
    if sat then x.courses true ++ inTurn (x.courses false) (z.courses true) else []
  | .pair .orD x z, sat =>
    if sat then x.courses true ++ inTurn (x.courses false) (z.courses true)
    else inTurn (x.courses false) (z.courses false)
  | .pair .orI x z, sat => x.courses sat ++ z.courses sat
  | .andor x y z, sat =>
    if sat then
      inTurn (x.courses true) (y.courses true) ++ inTurn (x.courses false) (z.courses true)
    else inTurn (x.courses false) (z.courses false)
  | .thresh k subs, sat => selections (if sat then k else 0) subs

/-- The courses that satisfy exactly `k` of the fragments and dissatisfy the others. -/
def selections (k : Int) : List Fragment → List Course
  | [] => if k = 0 then [[]] else []
  | x :: rest =>
    inTurn (x.courses true) (selections (k - 1) rest) ++ inTurn (x.courses false) (selections k rest)

end

end Fragment

/-! ## The operations of courses -/

namespace Course

/-- The operations of the most expensive course, where `base` operations count in any case. -/
def ops (base : Int) (cs : List Course) : OpCount Int :=
  (mostKeys cs).map fun n : Nat => base + n

theorem multiKeys_append (c d : Course) : multiKeys (c ++ d) = multiKeys c + multiKeys d := by
  induction c with
  | nil => simp [multiKeys]
  | cons l c ih =>
    simp only [multiKeys, List.cons_append, List.foldr_cons] at ih ⊢
    omega

@[simp] theorem ops_nil (base : Int) : ops base [] = none := rfl

theorem ops_cons (base : Int) (c : Course) (cs : List Course) :
    ops base (c :: cs) = OpCount.or (some (base + multiKeys c)) (ops base cs) := by
  simp only [ops, mostKeys, List.map_cons, List.max?_cons]
  cases (cs.map multiKeys).max? with
  | none => simp
  | some n =>
    simp only [Option.map_some, Option.elim_some, OpCount.some_or_some, Option.some.injEq]
    omega

@[simp] theorem ops_singleton (base : Int) (c : Course) :
    ops base [c] = some (base + multiKeys c) := by
  rw [ops_cons, ops_nil, OpCount.or_none]

@[simp] theorem ops_append (base : Int) (cs ds : List Course) :
    ops base (cs ++ ds) = OpCount.or (ops base cs) (ops base ds) := by
  induction cs with
  | nil => simp
  | cons c cs ih => rw [List.cons_append, ops_cons, ops_cons, ih, OpCount.or_assoc]

theorem ops_map_append (s t : Int) (c : Course) (ds : List Course) :
    ops (s + t) (ds.map (c ++ ·)) = OpCount.and (some (s + multiKeys c)) (ops t ds) := by
  induction ds with
  | nil => simp
  | cons d ds ih =>
    have sum : s + t + multiKeys (c ++ d) = s + multiKeys c + (t + multiKeys d) := by
      rw [multiKeys_append]
      omega
    rw [List.map_cons, ops_cons, ops_cons, ih, OpCount.and_or, OpCount.some_and_some, sum]

/-- The most expensive course of two in turn is made of the most expensive ones. -/
theorem ops_inTurn (s t : Int) (cs ds : List Course) :
    ops (s + t) (inTurn cs ds) = OpCount.and (ops s cs) (ops t ds) := by
  induction cs with
  | nil => simp [inTurn]
  | cons c cs ih =>
    have split : inTurn (c :: cs) ds = ds.map (c ++ ·) ++ inTurn cs ds := List.flatMap_cons
    rw [split, ops_append, ops_map_append, ops_cons, OpCount.or_and, ih]

/-- What counts in any case counts on top of every course. -/
theorem ops_add (base n : Int) (cs : List Course) : ops (base + n) cs = (ops base cs).plus n := by
  unfold ops
  cases mostKeys cs with
  | none => rfl
  | some m =>
    simp [OpCount.plus_eq]
    omega

section Rules

variable {a b : OpCount Int} {s t : Int} {cs ds : List Course}

theorem plus_eq_ops (first : a = ops s cs) (n : Int) : a.plus n = ops (s + n) cs := by
  rw [first, ops_add]

theorem and_eq_ops (first : a = ops s cs) (second : b = ops t ds) :
    OpCount.and a b = ops (s + t) (inTurn cs ds) := by
  rw [first, second, ops_inTurn]

theorem or_eq_ops (first : a = ops s cs) (second : b = ops s ds) :
    OpCount.or a b = ops s (cs ++ ds) := by
  rw [first, second, ops_append]

end Rules

end Course

/-! ## Exact counts -/

namespace Cost

open Course (ops inTurn)

/-- The operations are those of the most expensive courses. -/
structure Tells (c : Cost Int) (sat dissat : List Course) : Prop where
  sat : c.satOps = ops c.staticOps sat
  dissat : c.dissatOps = ops c.staticOps dissat

variable {c l r : Cost Int} {sat dissat sat' dissat' : List Course}

theorem tells_ofLeaf (leaf : Leaf) :
    (ofLeaf leaf).Tells ((Fragment.leaf leaf).courses true) ((Fragment.leaf leaf).courses false) := by
  cases leaf with
  | multi k keys =>
    have counted : some ((keys.length : Int) + 1) = ops 1 [[Leaf.multi k keys]] := by
      rw [Course.ops_singleton, Int.add_comm]
      rfl
    exact ⟨counted, counted⟩
  | _ => exact ⟨rfl, rfl⟩

theorem Tells.addOps (told : c.Tells sat dissat) (n : Int) : (c.addOps n).Tells sat dissat :=
  ⟨Course.plus_eq_ops told.sat n, Course.plus_eq_ops told.dissat n⟩

theorem Tells.withDissat (told : c.Tells sat dissat) : c.withDissat.Tells sat [[]] :=
  ⟨told.sat, by simp [Cost.withDissat, Course.multiKeys]⟩

end Cost

namespace Fragment

open Course (ops inTurn plus_eq_ops and_eq_ops or_eq_ops)

/-- The operations of a fragment are those of its most expensive courses. -/
def Exact (f : Fragment) : Prop := (f.cost Int).Tells (f.courses true) (f.courses false)

theorem Exact.wrap {x : Fragment} (part : x.Exact) (w : Wrapper) : (Fragment.wrap w x).Exact := by
  have more := part.addOps
  unfold Exact
  simp only [cost, Cost.wrap]
  cases w with
  | alt => exact more 2
  | swap => exact ⟨(more 1).sat, (more 1).dissat⟩
  | check => exact ⟨(more 1).sat, (more 1).dissat⟩
  | dupIf => exact ⟨(more 3).sat, (more 3).withDissat.dissat⟩
  | verify => exact ⟨(more _).sat, rfl⟩
  | nonZero => exact (more 4).withDissat
  | zeroNotEqual => exact more 1

theorem Exact.pair {x y : Fragment} (left : x.Exact) (right : y.Exact) (op : Combinator) :
    (Fragment.pair op x y).Exact := by
  have inRow {sat dissat : OpCount Int} {cs ds : List Course}
      (hsat : sat = ops ((x.cost Int).staticOps + (y.cost Int).staticOps) cs)
      (hdissat : dissat = ops ((x.cost Int).staticOps + (y.cost Int).staticOps) ds) :
      (Cost.inRow (x.cost Int) (y.cost Int) sat dissat).Tells cs ds := ⟨hsat, hdissat⟩
  have orElse :=
    or_eq_ops (plus_eq_ops left.sat (y.cost Int).staticOps) (and_eq_ops left.dissat right.sat)
  have swapped {a : OpCount Int} {cs : List Course} (told : a = ops (y.cost Int).staticOps cs) :
      a.plus (x.cost Int).staticOps = ops ((x.cost Int).staticOps + (y.cost Int).staticOps) cs := by
    rw [Int.add_comm]
    exact plus_eq_ops told _
  unfold Exact
  rw [cost]
  cases op with
  | andV => exact ⟨and_eq_ops left.sat right.sat, rfl⟩
  | andB =>
    exact (inRow (and_eq_ops left.sat right.sat) (and_eq_ops left.dissat right.dissat)).addOps 1
  | orB =>
    exact (inRow (or_eq_ops (and_eq_ops left.sat right.dissat) (and_eq_ops left.dissat right.sat))
      (and_eq_ops left.dissat right.dissat)).addOps 1
  | orD => exact (inRow orElse (and_eq_ops left.dissat right.dissat)).addOps 3
  | orC => exact (inRow orElse (Course.ops_nil _).symm).addOps 2
  | orI =>
    have either := (inRow (or_eq_ops (plus_eq_ops left.sat _) (swapped right.sat))
      (or_eq_ops (plus_eq_ops left.dissat _) (swapped right.dissat))).addOps 3
    exact ⟨either.sat, either.dissat⟩

theorem Exact.andor {x y z : Fragment} (condition : x.Exact) (met : y.Exact) (unmet : z.Exact) :
    (Fragment.andor x y z).Exact := by
  have otherwise {a : OpCount Int} {cs : List Course} (told : a = ops (z.cost Int).staticOps cs) :
      (OpCount.and (x.cost Int).dissatOps a).plus (y.cost Int).staticOps =
        ops ((x.cost Int).staticOps + (y.cost Int).staticOps + (z.cost Int).staticOps)
          (inTurn (x.courses false) cs) := by
    rw [plus_eq_ops (and_eq_ops condition.dissat told), Int.add_right_comm]
  have sat := or_eq_ops (plus_eq_ops (and_eq_ops condition.sat met.sat) (z.cost Int).staticOps)
    (otherwise unmet.sat)
  unfold Exact
  rw [cost]
  exact Cost.Tells.addOps ⟨sat, otherwise unmet.dissat⟩ 3

/-- The most expensive way to satisfy exactly `k` parts is the most expensive one of the courses. -/
theorem mostOps_eq_ops {subs : List Fragment} (parts : ∀ x ∈ subs, x.Exact) (k : Int) :
    Cost.mostOps k (costs Int subs) =
      ops (Counting.sum ((costs Int subs).map Cost.staticOps)) (selections k subs) := by
  induction subs generalizing k with
  | nil =>
    rw [costs, Cost.mostOps, selections]
    split <;> rfl
  | cons x rest ih =>
    have head := parts x List.mem_cons_self
    have tail := ih fun y member => parts y (List.mem_cons_of_mem _ member)
    rw [costs, Cost.mostOps, selections]
    exact or_eq_ops (and_eq_ops head.sat (tail (k - 1))) (and_eq_ops head.dissat (tail k))

theorem Exact.thresh {subs : List Fragment} (parts : ∀ x ∈ subs, x.Exact) (k : Int) :
    (Fragment.thresh k subs).Exact := by
  have chosen (k : Int) : (Cost.mostOps k (costs Int subs)).plus (subs.length : Int) =
      ops (subs.length + Counting.sum ((costs Int subs).map Cost.staticOps)) (selections k subs) := by
    rw [Int.add_comm]
    exact plus_eq_ops (mostOps_eq_ops parts k) subs.length
  constructor
  · rw [cost, courses, Cost.satOps_threshold, Counting.ofInt_int, chosen]
    rfl
  · rw [cost, courses, Cost.dissatOps_threshold, Counting.ofInt_int, chosen]
    rfl

/-- The operations of every fragment are exact, whatever its type. -/
theorem exact (f : Fragment) : f.Exact := by
  induction f with
  | leaf l =>
    rw [Exact, cost, Cost.ofExact_int]
    exact Cost.tells_ofLeaf l
  | wrap w x ih => exact ih.wrap w
  | pair op x y ihx ihy => exact ihx.pair ihy op
  | andor x y z ihx ihy ihz => exact ihx.andor ihy ihz
  | thresh k subs ih => exact Exact.thresh ih k

end Fragment

/-! ## The operations of all leaves -/

namespace Fragment

mutual

/-- The leaves of a fragment, part by part. -/
def leaves : Fragment → List Leaf
  | .leaf l => [l]
  | .wrap _ x => x.leaves
  | .pair _ x y => x.leaves ++ y.leaves
  | .andor x y z => x.leaves ++ y.leaves ++ z.leaves
  | .thresh _ subs => leavesOf subs

/-- The leaves of several fragments in order. -/
def leavesOf : List Fragment → List Leaf
  | [] => []
  | x :: rest => x.leaves ++ leavesOf rest

end

theorem leavesOf_eq_flatMap (subs : List Fragment) : leavesOf subs = subs.flatMap leaves := by
  induction subs with
  | nil => rfl
  | cons x rest ih => rw [leavesOf, ih, List.flatMap_cons]

/-- The operations of the script and the keys of all its CHECKMULTISIGs. -/
def allOps (f : Fragment) : Int := (f.cost Int).staticOps + Course.multiKeys f.leaves

end Fragment

namespace Course

/-- Courses that run only leaves of the given ones, in their order. -/
def Among (leaves : List Leaf) (cs : List Course) : Prop := ∀ c ∈ cs, c.Sublist leaves

variable {leaves leaves' : List Leaf} {cs ds : List Course}

theorem among_nil (leaves : List Leaf) : Among leaves [] := List.forall_mem_nil _

/-- To run nothing is to run some of the leaves. -/
theorem among_skip (leaves : List Leaf) : Among leaves [[]] :=
  List.forall_mem_singleton.2 (List.nil_sublist leaves)

theorem Among.mono (among : Among leaves cs) (more : leaves.Sublist leaves') :
    Among leaves' cs :=
  fun c member => (among c member).trans more

theorem Among.append (first : Among leaves cs) (second : Among leaves ds) :
    Among leaves (cs ++ ds) :=
  List.forall_mem_append.2 ⟨first, second⟩

theorem Among.inTurn (first : Among leaves cs) (second : Among leaves' ds) :
    Among (leaves ++ leaves') (inTurn cs ds) := by
  intro c member
  obtain ⟨a, early, rest⟩ := List.mem_flatMap.1 member
  obtain ⟨b, late, rfl⟩ := List.mem_map.1 rest
  exact (first a early).append (second b late)

theorem multiKeys_le_of_sublist {c d : Course} (some : c.Sublist d) : multiKeys c ≤ multiKeys d := by
  induction some with
  | slnil => exact Nat.le_refl _
  | cons l _ ih =>
    simp only [multiKeys, List.foldr_cons] at ih ⊢
    omega
  | cons_cons l _ ih =>
    simp only [multiKeys, List.foldr_cons] at ih ⊢
    omega

theorem between_ops {base n : Int} (among : Among leaves cs) (member : n ∈ ops base cs) :
    base ≤ n ∧ n ≤ base + multiKeys leaves := by
  obtain ⟨most, found, rfl⟩ := Option.map_eq_some_iff.1 member
  obtain ⟨c, inside, rfl⟩ := List.mem_map.1 (List.max?_mem found)
  have keys := multiKeys_le_of_sublist (among c inside)
  omega

end Course

namespace Fragment

open Course (Among among_nil among_skip)

theorem among_selections {subs : List Fragment}
    (parts : ∀ x ∈ subs, ∀ sat, Among x.leaves (x.courses sat)) (k : Int) :
    Among (leavesOf subs) (selections k subs) := by
  induction subs generalizing k with
  | nil =>
    rw [selections]
    split
    · exact among_skip _
    · exact among_nil _
  | cons x rest ih =>
    have head := parts x List.mem_cons_self
    have tail := ih fun y member => parts y (List.mem_cons_of_mem _ member)
    exact ((head true).inTurn (tail (k - 1))).append ((head false).inTurn (tail k))

/-- A course runs every leaf at most once. -/
theorem among_courses (f : Fragment) (sat : Bool) : Among f.leaves (f.courses sat) := by
  induction f generalizing sat with
  | leaf l =>
    rw [courses]
    split
    · exact List.forall_mem_singleton.2 (List.Sublist.refl _)
    · exact among_nil _
  | wrap w x ih =>
    have skip := among_skip x.leaves
    have none := among_nil x.leaves
    cases w with
    | dupIf => cases sat with | true => exact ih true | false => exact skip
    | nonZero => cases sat with | true => exact ih true | false => exact skip
    | verify => cases sat with | true => exact ih true | false => exact none
    | _ => exact ih sat
  | pair op x y ihx ihy =>
    have none := among_nil (x.leaves ++ y.leaves)
    have alone (sat : Bool) := (ihx sat).mono (List.sublist_append_left x.leaves y.leaves)
    have alone' (sat : Bool) := (ihy sat).mono (List.sublist_append_right x.leaves y.leaves)
    have both (sat sat' : Bool) := (ihx sat).inTurn (ihy sat')
    cases op with
    | andV => cases sat with | true => exact both true true | false => exact none
    | andB => exact both sat sat
    | orB =>
      cases sat with
      | true => exact (both true false).append (both false true)
      | false => exact both false false
    | orC =>
      cases sat with | true => exact (alone true).append (both false true) | false => exact none
    | orD =>
      cases sat with
      | true => exact (alone true).append (both false true)
      | false => exact both false false
    | orI => exact (alone sat).append (alone' sat)
  | andor x y z ihx ihy ihz =>
    have met : Among (x.leaves ++ y.leaves ++ z.leaves) _ :=
      ((ihx true).inTurn (ihy true)).mono (List.sublist_append_left _ _)
    have unmet (sat : Bool) : Among (x.leaves ++ y.leaves ++ z.leaves) _ :=
      ((ihx false).inTurn (ihz sat)).mono
        ((List.sublist_append_left x.leaves y.leaves).append (.refl z.leaves))
    cases sat with
    | true => exact met.append (unmet true)
    | false => exact unmet false
  | thresh k subs ih => exact among_selections ih _

end Fragment

/-- At least `lo` and at most `hi` operations, if it can be done at all. -/
def OpCount.Between (lo hi : Int) (a : OpCount Int) : Prop := ∀ n ∈ a, lo ≤ n ∧ n ≤ hi

/-- Every count of the cost lies between the operations of the script and `most`. -/
structure Cost.Bounded (most : Int) (c : Cost Int) : Prop where
  nonneg : 0 ≤ c.staticOps
  le : c.staticOps ≤ most
  sat : c.satOps.Between c.staticOps most
  dissat : c.dissatOps.Between c.staticOps most

namespace Fragment

theorem staticOps_nonneg (f : Fragment) : 0 ≤ (f.cost Int).staticOps := by
  induction f with
  | leaf l =>
    rw [cost, Cost.ofExact_int]
    cases l <;>
      simp [Cost.ofLeaf, Cost.zero, Cost.one, Cost.pk, Cost.pkHash, Cost.timeLock, Cost.hashLock,
        Cost.multi]
  | wrap w x ih =>
    rw [cost]
    cases w <;> simp only [Cost.wrap, Cost.addOps, Cost.withDissat, Counting.ofInt_int] <;> grind
  | pair op x y ihx ihy =>
    rw [cost]
    cases op <;> simp only [Cost.pair, Cost.inRow, Cost.addOps, Counting.ofInt_int] <;> omega
  | andor x y z ihx ihy ihz =>
    rw [cost]
    simp only [Cost.andor, Cost.addOps, Counting.ofInt_int]
    omega
  | thresh k subs ih =>
    rw [cost]
    simp only [Cost.threshold, Counting.ofInt_int]
    have parts : 0 ≤ Counting.sum ((costs Int subs).map Cost.staticOps) := by
      induction subs with
      | nil => exact Int.le_refl 0
      | cons x rest tail =>
        have head := ih x List.mem_cons_self
        have rest := tail fun y member => ih y (List.mem_cons_of_mem _ member)
        simp only [costs, List.map_cons, Counting.sum_int, List.foldr_cons] at rest ⊢
        omega
    omega

/-- No count is below the operations of the script, and none above those of a course that runs every
leaf. -/
theorem bounded_cost (f : Fragment) : (f.cost Int).Bounded f.allOps where
  nonneg := f.staticOps_nonneg
  le := by
    rw [allOps]
    omega
  sat n member := Course.between_ops (f.among_courses true) (f.exact.sat ▸ member)
  dissat n member := Course.between_ops (f.among_courses false) (f.exact.dissat ▸ member)

end Fragment

end LockScript
