import LockScript.Proofs.Fragment.Regrouping

/-!
The grouping that a script shows.

Of all the fragments that differ in the grouping of sequences only, one has its sequences nested to
the right and moved out as far as they can be. `Fragment.grouped` computes it: regrouping does not
change it (`Regrouped.grouped_eq`), and what is grouped already stays as it is
(`Grouped.grouped_eq_self`), so it is the one grouped form of every typed fragment
(`Fragment.fits_grouped`).

Moving sequences out makes a fragment deeper. How deep it can get is bounded by the operations of
its script, of which there are three for every five fragments on the longest way down, but for a
constant (`Fragment.three_mul_depth_grouped_le`).
-/

namespace LockScript

namespace Fragment

/-- What is written after the last part of a sequence, or after a fragment that is none. -/
def atEnd (c : Fragment → Fragment) : Fragment → Fragment
  | .pair .andV x y => .pair .andV x (atEnd c y)
  | f => c f

/-- A grouped fragment in a wrapper; `c:`, `v:` and `n:` move to its end. -/
def wrapAtEnd (w : Wrapper) (x : Fragment) : Fragment :=
  match w with
  | .check => atEnd (.wrap .check) x
  | .verify => atEnd (.wrap .verify) x
  | .zeroNotEqual => atEnd (.wrap .zeroNotEqual) x
  | _ => .wrap w x

/-- Two grouped fragments combined; what follows a sequence moves to its end. -/
def pairAtEnd (op : Combinator) (x y : Fragment) : Fragment :=
  match op with
  | .andV => atEnd (.pair .andV · y) x
  | .andB => atEnd (.pair .andB · y) x
  | _ => .pair op x y

mutual

/-- The fragment with its sequences nested to the right and moved out of `c:`, `v:`, `n:` and the
first part of `and_b`. -/
def grouped : Fragment → Fragment
  | .leaf l => .leaf l
  | .wrap w x => wrapAtEnd w x.grouped
  | .pair op x y => pairAtEnd op x.grouped y.grouped
  | .andor x y z => .andor x.grouped y.grouped z.grouped
  | .thresh k subs => .thresh k (groupedAll subs)

/-- Several fragments, each grouped. -/
def groupedAll : List Fragment → List Fragment
  | [] => []
  | x :: rest => x.grouped :: groupedAll rest

end

theorem groupedAll_eq_map (subs : List Fragment) : groupedAll subs = subs.map grouped := by
  induction subs with
  | nil => rfl
  | cons x rest ih => rw [groupedAll, ih, List.map_cons]

/-! ## Regrouping does not change the grouped form -/

/-- What follows a sequence of two follows the second. -/
theorem atEnd_andV (c : Fragment → Fragment) (x y : Fragment) :
    atEnd c (atEnd (.pair .andV · y) x) = atEnd (.pair .andV · (atEnd c y)) x := by
  induction x with
  | pair op u v _ ih =>
    cases op with
    | andV => rw [atEnd, atEnd, atEnd, ih]
    | _ => rfl
  | _ => rfl

theorem wrapAtEnd_of_trails {w : Wrapper} (trails : w.Trails) (x : Fragment) :
    wrapAtEnd w x = atEnd (.wrap w) x := by
  rcases trails with rfl | rfl | rfl <;> rfl

end Fragment

open Fragment in
/-- Fragments that differ in the grouping of sequences have the same grouped form. -/
theorem Regrouped.grouped_eq {f g : Fragment} (regrouped : Regrouped f g) :
    f.grouped = g.grouped := by
  induction regrouped with
  | refl f => rfl
  | trans _ _ ih ih' => rw [ih, ih']
  | nest x y z =>
    simp only [grouped, pairAtEnd]
    rw [atEnd_andV]
  | float trails x y =>
    simp only [grouped, pairAtEnd, wrapAtEnd_of_trails trails]
    rw [atEnd_andV]
  | floatAndB x y z =>
    simp only [grouped, pairAtEnd]
    rw [atEnd_andV]
  | wrap w _ ih => rw [grouped, grouped, ih]
  | pair op _ _ ih ih' => rw [grouped, grouped, ih, ih']
  | andor _ _ _ ih ih' ih'' => rw [grouped, grouped, ih, ih', ih'']
  | thresh k before after _ ih =>
    rw [grouped, grouped, groupedAll_eq_map, groupedAll_eq_map, List.map_append, List.map_append,
      List.map_cons, List.map_cons, ih]

/-! ## Grouped fragments are their own grouped form -/

namespace Grouped

variable {x : Fragment}

/-- A single fragment is no sequence. -/
theorem atEnd_single (c : Fragment → Fragment) (single : Grouped .single x) :
    Fragment.atEnd c x = c x := by
  cases single with
  | _ => rfl

theorem grouped_eq_self {role : Role} {f : Fragment} (grouped : Grouped role f) :
    f.grouped = f := by
  induction grouped with
  | leaf l => rw [Fragment.grouped]
  | trail trails single ih =>
    rw [Fragment.grouped, ih, Fragment.wrapAtEnd_of_trails trails, atEnd_single _ single]
  | andB single _ ih ih' =>
    rw [Fragment.grouped, ih, ih']
    exact atEnd_single _ single
  | andV single _ ih ih' =>
    rw [Fragment.grouped, ih, ih']
    exact atEnd_single _ single
  | andor _ _ _ ih ih' ih'' => rw [Fragment.grouped, ih, ih', ih'']
  | thresh k _ _ ih ihs =>
    rw [Fragment.grouped, Fragment.groupedAll_eq_map, List.map_cons, ih,
      List.map_congr_left ihs, List.map_id']
  | last _ ih => exact ih
  | _ => simp_all [Fragment.grouped, Fragment.wrapAtEnd, Fragment.pairAtEnd]

end Grouped

/-- The grouped form of a typed fragment differs from it in the grouping only, and stands where its
type says. -/
theorem Fragment.fits_grouped {ν : Type} [Add ν] [Sub ν] [Counting ν] {f : Fragment}
    {facts : Facts ν} (typed : f.facts? = .ok facts) :
    Regrouped f f.grouped ∧ facts.type.corr.Fits f.grouped := by
  obtain ⟨g, regrouped, fits⟩ := exists_fits typed
  have stands : ∃ role, Grouped role g := by
    by_cases base : facts.type.corr.base = .W
    · exact ⟨.below, fits.below base⟩
    · exact ⟨.sequence, fits.sequence base⟩
  obtain ⟨role, place⟩ := stands
  have same : f.grouped = g := regrouped.grouped_eq.trans place.grouped_eq_self
  rw [same]
  exact ⟨regrouped, fits⟩

/-! ## Depth and operations -/

namespace Facts

/-- How far three times the depth of a fragment in the given place may exceed five times the number
of its operations. -/
def slack (facts : Facts Int) : Role → Int
  | .single => if facts.type.corr.base = .V then 4 else if facts.cost.verifyForm then 1 else 3
  | .sequence => 7
  | .below => 5

/-- A fragment with these facts, in the given place and of the given depth, has as many operations
as it takes to get that deep. -/
structure Busy (facts : Facts Int) (role : Role) (depth : Nat) : Prop where
  nonneg : 0 ≤ facts.cost.staticOps
  verify : facts.type.corr.base = .V → 1 ≤ facts.cost.staticOps
  verifyForm : facts.cost.verifyForm = true → 1 ≤ facts.cost.staticOps
  deep : 3 * (depth : Int) ≤ 5 * facts.cost.staticOps + facts.slack role

variable {facts : Facts Int} {role : Role} {depth : Nat}

theorem slack_bounds (facts : Facts Int) : 1 ≤ facts.slack .single ∧ facts.slack .single ≤ 4 := by
  rw [slack]
  split
  · omega
  · split <;> omega

namespace Busy

theorem single (busy : facts.Busy .single depth) (base : facts.type.corr.base ≠ .V) :
    0 ≤ facts.cost.staticOps ∧ 3 * (depth : Int) ≤ 5 * facts.cost.staticOps + 3 := by
  have slack : facts.slack .single ≤ 3 := by
    rw [slack, if_neg base]
    split <;> omega
  have deep := busy.deep
  exact ⟨busy.nonneg, by omega⟩

theorem sequence (busy : facts.Busy .sequence depth) :
    0 ≤ facts.cost.staticOps ∧ 3 * (depth : Int) ≤ 5 * facts.cost.staticOps + 7 :=
  ⟨busy.nonneg, busy.deep⟩

theorem below (busy : facts.Busy .below depth) :
    0 ≤ facts.cost.staticOps ∧ 3 * (depth : Int) ≤ 5 * facts.cost.staticOps + 5 :=
  ⟨busy.nonneg, busy.deep⟩

end Busy

/-- A fragment with operations of its own around parts that need not have any. -/
theorem busy_of_pos (parts own : Int) (ops : facts.cost.staticOps = parts + own)
    (nonneg : 0 ≤ parts) (pos : 1 ≤ own)
    (deep : 3 * (depth : Int) ≤ 5 * (parts + own) + facts.slack role) : facts.Busy role depth := by
  have some : 1 ≤ facts.cost.staticOps := by omega
  exact ⟨by omega, fun _ => some, fun _ => some, ops ▸ deep⟩

/-- As no slack of a single fragment is less than 1, that much can be relied on. -/
theorem busy_single (parts own : Int) (ops : facts.cost.staticOps = parts + own)
    (nonneg : 0 ≤ parts) (pos : 1 ≤ own) (deep : 3 * (depth : Int) ≤ 5 * (parts + own) + 1) :
    facts.Busy .single depth := by
  have slack := facts.slack_bounds
  exact busy_of_pos parts own ops nonneg pos (by omega)

theorem busy_leaf (l : Leaf) : Busy ⟨⟨.ofLeaf l, .ofLeaf l⟩, .ofLeaf l⟩ .single 1 := by
  cases l <;> constructor <;>
    simp [slack, Correctness.ofLeaf, Correctness.timeLock, Cost.ofLeaf, Cost.zero, Cost.one, Cost.pk,
      Cost.pkHash, Cost.timeLock, Cost.hashLock, Cost.multi] <;>
    decide

theorem Busy.trail {w : Wrapper} (trails : w.Trails) {c : Correctness}
    (busy : facts.Busy .single depth) (accepted : Correctness.wrap w facts.type.corr = .ok c) :
    Busy ⟨⟨c, .wrap w facts.type.mall⟩, .wrap w facts.cost⟩ .single (depth + 1) := by
  rcases trails with rfl | rfl | rfl
  · obtain ⟨base, rfl⟩ := Correctness.wrap_check_iff.1 accepted
    obtain ⟨nonneg, deep⟩ := busy.single (by simp [base])
    exact busy_single facts.cost.staticOps 1 rfl nonneg (by decide) (by omega)
  · obtain ⟨base, rfl⟩ := Correctness.wrap_verify_iff.1 accepted
    cases free : facts.cost.verifyForm with
    | true =>
      -- VERIFY is no operation of its own here, but the fragment has one that it merges with.
      have some := busy.verifyForm free
      have deep := busy.deep
      rw [slack, if_neg (by simp [base]), if_pos free] at deep
      refine busy_of_pos (facts.cost.staticOps - 1) 1 ?_ (by omega) (by decide) ?_
      · simp [Cost.wrap, Cost.addOps, free]
      · rw [slack, if_pos rfl]
        omega
    | false =>
      obtain ⟨nonneg, deep⟩ := busy.single (by simp [base])
      refine busy_single facts.cost.staticOps 1 ?_ nonneg (by decide) (by omega)
      simp [Cost.wrap, Cost.addOps, free]
  · obtain ⟨base, rfl⟩ := Correctness.wrap_zeroNotEqual_iff.1 accepted
    obtain ⟨nonneg, deep⟩ := busy.single (by simp [base])
    refine busy_of_pos facts.cost.staticOps 1 rfl nonneg (by decide) ?_
    rw [slack, if_neg (by simp), if_neg (by simp [Cost.wrap, Cost.addOps])]
    omega

/-- The parts of a threshold after the first. -/
theorem busy_parts {subs : List Fragment} {fs : List (Facts Int)}
    (each : List.Forall₂ (fun x fx => Busy fx .below x.depth) subs fs) :
    0 ≤ (fs.map fun fx => fx.cost.staticOps).foldr (· + ·) 0 ∧
      3 * (Fragment.maxDepth subs : Int)
        ≤ 5 * ((fs.map fun fx => fx.cost.staticOps).foldr (· + ·) 0 + fs.length) := by
  induction each with
  | nil => exact ⟨by decide, by decide⟩
  | @cons x fx rest fs head _ ih =>
    have first := head.below
    rw [List.map_cons, List.foldr_cons, Fragment.maxDepth, List.length_cons]
    omega

end Facts

/-- A grouped fragment has as many operations as it takes to get as deep as it is. -/
theorem Grouped.busy {role : Role} {f : Fragment} {facts : Facts Int} (grouped : Grouped role f)
    (typed : f.facts? = .ok facts) : facts.Busy role f.depth := by
  induction grouped generalizing facts with
  | leaf l =>
    obtain ⟨-, rfl, -⟩ := Fragment.facts?_leaf_iff.1 typed
    rw [Cost.ofExact_int]
    exact Facts.busy_leaf l
  | trail trails _ ih =>
    obtain ⟨fx, c, hx, accepted, rfl, -⟩ := Fragment.facts?_wrap_iff.1 typed
    exact (ih hx).trail trails accepted
  | dupIf _ ih =>
    obtain ⟨fx, c, hx, -, rfl, -⟩ := Fragment.facts?_wrap_iff.1 typed
    have x := (ih hx).sequence
    exact Facts.busy_single fx.cost.staticOps 3 rfl x.1 (by decide) (by rw [Fragment.depth]; omega)
  | nonZero _ ih =>
    obtain ⟨fx, c, hx, -, rfl, -⟩ := Fragment.facts?_wrap_iff.1 typed
    have x := (ih hx).sequence
    exact Facts.busy_single fx.cost.staticOps 4 rfl x.1 (by decide) (by rw [Fragment.depth]; omega)
  | andB _ _ ihx ihy =>
    obtain ⟨fx, fy, c, hx, hy, accepted, rfl, -⟩ := Fragment.facts?_pair_iff.1 typed
    obtain ⟨base, -, rfl⟩ := Correctness.pair_andB_iff.1 accepted
    have x := (ihx hx).single (by simp [base])
    have y := (ihy hy).below
    refine Facts.busy_of_pos (fx.cost.staticOps + fy.cost.staticOps) 1 rfl (by omega) (by decide) ?_
    rw [Fragment.depth, Facts.slack, if_neg (by simp), if_neg (by simp [Cost.pair, Cost.addOps])]
    omega
  | orB _ _ ihx ihz =>
    obtain ⟨fx, fz, c, hx, hz, accepted, rfl, -⟩ := Fragment.facts?_pair_iff.1 typed
    obtain ⟨base, -, -, -, rfl⟩ := Correctness.pair_orB_iff.1 accepted
    have x := (ihx hx).single (by simp [base])
    have z := (ihz hz).below
    refine Facts.busy_of_pos (fx.cost.staticOps + fz.cost.staticOps) 1 rfl (by omega) (by decide) ?_
    rw [Fragment.depth, Facts.slack, if_neg (by simp), if_neg (by simp [Cost.pair, Cost.addOps])]
    omega
  | orD _ _ ihx ihz =>
    obtain ⟨fx, fz, c, hx, hz, accepted, rfl, -⟩ := Fragment.facts?_pair_iff.1 typed
    obtain ⟨base, -⟩ := Correctness.pair_orD_iff.1 accepted
    have x := (ihx hx).single (by simp [base])
    have z := (ihz hz).sequence
    exact Facts.busy_single (fx.cost.staticOps + fz.cost.staticOps) 3 rfl (by omega) (by decide)
      (by rw [Fragment.depth]; omega)
  | orC _ _ ihx ihz =>
    obtain ⟨fx, fz, c, hx, hz, accepted, rfl, -⟩ := Fragment.facts?_pair_iff.1 typed
    obtain ⟨base, -⟩ := Correctness.pair_orC_iff.1 accepted
    have x := (ihx hx).single (by simp [base])
    have z := (ihz hz).sequence
    exact Facts.busy_single (fx.cost.staticOps + fz.cost.staticOps) 2 rfl (by omega) (by decide)
      (by rw [Fragment.depth]; omega)
  | orI _ _ ihx ihz =>
    obtain ⟨fx, fz, c, hx, hz, -, rfl, -⟩ := Fragment.facts?_pair_iff.1 typed
    have x := (ihx hx).sequence
    have z := (ihz hz).sequence
    exact Facts.busy_single (fx.cost.staticOps + fz.cost.staticOps) 3 rfl (by omega) (by decide)
      (by rw [Fragment.depth]; omega)
  | andor _ _ _ ihx ihy ihz =>
    obtain ⟨fx, fy, fz, c, hx, hy, hz, accepted, rfl, -⟩ := Fragment.facts?_andor_iff.1 typed
    obtain ⟨base, -⟩ := Correctness.andor_iff.1 accepted
    have x := (ihx hx).single (by simp [base])
    have y := (ihy hy).sequence
    have z := (ihz hz).sequence
    exact Facts.busy_single (fx.cost.staticOps + fy.cost.staticOps + fz.cost.staticOps) 3 rfl
      (by omega) (by decide) (by rw [Fragment.depth]; omega)
  | @thresh k x rest _ _ ihx ihs =>
    obtain ⟨fs, each, -, accepted, rfl, -⟩ := Fragment.facts?_thresh_iff.1 typed
    obtain ⟨fx, fs, hx, others, rfl⟩ := List.forall₂_cons_left_iff.1 each
    rw [List.map_cons, Correctness.checkSubs_zero_cons_iff] at accepted
    have first := (ihx hx).single (by simp [accepted.1.1])
    have parts := Facts.busy_parts (((List.forall₂_and_left rest fs).2 ⟨ihs, others⟩).imp
      fun _ _ both => both.1 both.2)
    refine Facts.busy_single
      (fx.cost.staticOps + (fs.map fun fx => fx.cost.staticOps).foldr (· + ·) 0) (fs.length + 1)
      ?_ (by omega) (by omega) ?_
    · simp only [Cost.threshold, List.map_cons, List.map_map, Function.comp_def, Counting.sum_int,
        Counting.ofInt_int, List.foldr_cons, List.length_cons]
      omega
    · rw [Fragment.depth, Fragment.maxDepth]
      omega
  | last _ ih =>
    obtain ⟨nonneg, verify, form, deep⟩ := ih typed
    have slack := (Facts.slack_bounds facts).2
    exact ⟨nonneg, verify, form, by rw [Facts.slack]; omega⟩
  | andV _ _ ihx ihy =>
    obtain ⟨fx, fy, c, hx, hy, accepted, rfl, -⟩ := Fragment.facts?_pair_iff.1 typed
    obtain ⟨base, -, rfl⟩ := Correctness.pair_andV_iff.1 accepted
    have some := (ihx hx).verify base
    have x := (ihx hx).deep
    have slack := (Facts.slack_bounds fx).2
    have y := (ihy hy).sequence
    refine Facts.busy_of_pos fy.cost.staticOps fx.cost.staticOps (Int.add_comm _ _) y.1 some ?_
    rw [Fragment.depth, Facts.slack]
    omega
  | alt _ ih =>
    obtain ⟨fx, c, hx, -, rfl, -⟩ := Fragment.facts?_wrap_iff.1 typed
    have x := (ih hx).sequence
    refine Facts.busy_of_pos fx.cost.staticOps 2 rfl x.1 (by decide) ?_
    rw [Fragment.depth, Facts.slack]
    omega
  | swap _ ih =>
    obtain ⟨fx, c, hx, -, rfl, -⟩ := Fragment.facts?_wrap_iff.1 typed
    have x := (ih hx).sequence
    refine Facts.busy_of_pos fx.cost.staticOps 1 rfl x.1 (by decide) ?_
    rw [Fragment.depth, Facts.slack]
    omega

/-- The grouped form of a fragment is no deeper than its operations, counted exactly, allow. -/
theorem Fragment.three_mul_depth_grouped_le {f : Fragment} {facts : Facts Int}
    (typed : f.facts? = .ok facts) :
    3 * (f.grouped.depth : Int) ≤ 5 * facts.cost.staticOps + 7 := by
  obtain ⟨regrouped, fits⟩ := fits_grouped typed
  have typed' := regrouped.exactFacts? typed
  by_cases base : facts.type.corr.base = .W
  · have deep := ((fits.below base).busy typed').below.2
    omega
  · exact ((fits.sequence base).busy typed').sequence.2

end LockScript
