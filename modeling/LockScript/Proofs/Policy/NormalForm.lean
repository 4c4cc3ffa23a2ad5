import LockScript.Proofs.Policy.Underrun

/-!
How far one pass of normalizing gets.

A pass leaves no branch that is decided beforehand and no threshold without a choice (`Reduced`). It
also spreads the branches of conjunctions inside conjunctions and of disjunctions inside disjunctions,
but it looks at a threshold as it was before trivial and unsatisfiable branches are taken out of it,
and a threshold of neither kind may become one of them that way. So what is left need not be `Flat`.
The next pass finds nothing to take out, and the one after it nothing to do
(`normalized_of_reduced`): a policy is in normal form after two passes, and after one if it comes
out flat, as it does if no threshold of neither kind loses a branch (`Steady`).
-/

namespace LockScript.Policy

variable {k : Int} {branches : List Policy} {isAnd isOr : Bool}

/-! ## What a pass is to leave -/

/-- Whether this is a condition that is met, or is not, whatever the answers are. -/
def isDecided : Policy → Bool
  | .leaf .trivial _ => true
  | .leaf .unsatisfiable _ => true
  | _ => false

/-- Whether this is a threshold that needs all of its branches. -/
def isConjunction : Policy → Bool
  | .leaf _ _ => false
  | .threshold k branches => k = branches.length

/-- Whether this is a threshold that needs a single branch. -/
def isDisjunction : Policy → Bool
  | .leaf _ _ => false
  | .threshold k _ => k = 1

/-- Nothing in the policy is decided beforehand, and every threshold leaves a choice. -/
inductive Reduced : Policy → Prop
  | leaf {c : Condition} {attached : List Policy} (undecided : (leaf c attached).isDecided = false) :
    Reduced (.leaf c attached)
  | threshold {k : Int} {branches : List Policy} (some : 1 ≤ k) (enough : k ≤ branches.length)
    (several : 2 ≤ branches.length) (each : ∀ p ∈ branches, Reduced p) :
    Reduced (.threshold k branches)

/-- No conjunction is directly inside a conjunction, and no disjunction inside a disjunction. -/
inductive Flat : Policy → Prop
  | leaf (c : Condition) (attached : List Policy) : Flat (.leaf c attached)
  | threshold {k : Int} {branches : List Policy}
    (conjunctions : k = branches.length → ∀ p ∈ branches, p.isConjunction = false)
    (disjunctions : k = 1 → ∀ p ∈ branches, p.isDisjunction = false)
    (each : ∀ p ∈ branches, Flat p) : Flat (.threshold k branches)

/-- No threshold that is neither a conjunction nor a disjunction, but could be met, has a branch that
comes out as decided. -/
inductive Steady : Policy → Prop
  | leaf (c : Condition) (attached : List Policy) : Steady (.leaf c attached)
  | threshold {k : Int} {branches : List Policy}
    (kept : 1 < k → k < branches.length → ∀ p ∈ branches, p.normalized.isDecided = false)
    (each : ∀ p ∈ branches, Steady p) : Steady (.threshold k branches)

/-! ## What takes the place of a branch -/

/-- All that takes the place of normalized branches. -/
def spread (isAnd isOr : Bool) (ps : List Policy) : List Policy :=
  (ps.map (merged isAnd isOr)).flatMap (·.2)

/-- By how much all of them change the number of branches needed. -/
def shift (isAnd isOr : Bool) (ps : List Policy) : Int :=
  ((ps.map (merged isAnd isOr)).map (·.1)).foldr (· + ·) 0

theorem spread_cons (p : Policy) (ps : List Policy) :
    spread isAnd isOr (p :: ps) = (merged isAnd isOr p).2 ++ spread isAnd isOr ps := rfl

theorem shift_cons (p : Policy) (ps : List Policy) :
    shift isAnd isOr (p :: ps) = (merged isAnd isOr p).1 + shift isAnd isOr ps := rfl

theorem normalized_threshold (k : Int) (branches : List Policy) :
    (threshold k branches).normalized
      = atLeast (stillNeeded k (change k branches))
        (spread (k = branches.length) (k = 1) (branches.map normalized)) := by
  rw [normalized, normalizedAll_eq_map]
  rfl

theorem change_eq_shift (k : Int) (branches : List Policy) :
    change k branches = shift (k = branches.length) (k = 1) (branches.map normalized) := rfl

theorem mem_spread {ps : List Policy} {q : Policy} (member : q ∈ spread isAnd isOr ps) :
    ∃ p ∈ ps, q ∈ (merged isAnd isOr p).2 := by
  obtain ⟨part, among, replaces⟩ := List.mem_flatMap.1 member
  obtain ⟨p, inside, rfl⟩ := List.mem_map.1 among
  exact ⟨p, inside, replaces⟩

/-- A branch that is decided gives way to nothing. -/
theorem merged_of_isDecided {p : Policy} (decided : p.isDecided = true) :
    (merged isAnd isOr p).2 = [] := by
  cases p with
  | leaf c attached => cases c <;> first | rfl | cases decided
  | threshold k branches => cases decided

/-- What takes the place of a branch is the branch itself or one of its own branches, and those only
if they are asked for in the same way. -/
theorem mem_merged {p q : Policy} (member : q ∈ (merged isAnd isOr p).2) :
    q = p ∧ p.isDecided = false ∧ (isAnd = true → p.isConjunction = false) ∧
        (isOr = true → p.isDisjunction = false) ∨
      ∃ k branches, p = threshold k branches ∧ q ∈ branches ∧
        (isAnd = true ∧ k = branches.length ∨ isOr = true ∧ k = 1) := by
  cases p with
  | leaf c attached =>
    left
    cases c with
    | trivial => cases member
    | unsatisfiable => cases member
    | _ => exact ⟨List.mem_singleton.1 member, rfl, fun _ => rfl, fun _ => rfl⟩
  | threshold k branches =>
    rw [merged] at member
    split at member
    · next conjunction => exact .inr ⟨k, branches, rfl, member, .inl conjunction⟩
    · next notAnd =>
      split at member
      · next disjunction => exact .inr ⟨k, branches, rfl, member, .inr disjunction⟩
      · next notOr =>
        refine .inl ⟨List.mem_singleton.1 member, rfl, fun yes => ?_, fun yes => ?_⟩
        · exact decide_eq_false fun all => notAnd ⟨yes, all⟩
        · exact decide_eq_false fun one => notOr ⟨yes, one⟩

/-- A branch stays as it is unless it is decided or asked for in the same way as its threshold. -/
theorem merged_of_kept {p : Policy} (undecided : p.isDecided = false)
    (notAnd : isAnd = true → p.isConjunction = false)
    (notOr : isOr = true → p.isDisjunction = false) : merged isAnd isOr p = (0, [p]) := by
  cases p with
  | leaf c attached => cases c <;> first | rfl | cases undecided
  | threshold k branches =>
    have noConjunction : ¬ (isAnd = true ∧ k = branches.length) := fun both =>
      of_decide_eq_false (notAnd both.1) both.2
    have noDisjunction : ¬ (isOr = true ∧ k = 1) := fun both =>
      of_decide_eq_false (notOr both.1) both.2
    rw [merged, if_neg noConjunction, if_neg noDisjunction]

/-! ## One pass reduces -/

theorem Reduced.isDecided {p : Policy} (reduced : p.Reduced) : p.isDecided = false := by
  cases reduced with
  | leaf undecided => exact undecided
  | threshold some enough several each => rfl

theorem reduced_merged {p : Policy} (settled : p.isDecided = true ∨ p.Reduced) :
    ∀ q ∈ (merged isAnd isOr p).2, q.Reduced := by
  intro q member
  rcases settled with decided | reduced
  · rw [merged_of_isDecided decided] at member
    cases member
  · rcases mem_merged member with ⟨rfl, -⟩ | ⟨k, branches, rfl, inside, -⟩
    · exact reduced
    · cases reduced with
      | threshold some enough several each => exact each q inside

/-- What is made of branches is decided if they are too few or none is needed, and else is the only
branch or a threshold with a choice. -/
theorem atLeast_cases (k : Int) (branches : List Policy) :
    ((k ≤ 0 ∨ branches.length < k) ∧ (atLeast k branches).isDecided = true) ∨
      (∃ p, branches = [p] ∧ atLeast k branches = p) ∨
      (1 ≤ k ∧ k ≤ branches.length ∧ 2 ≤ branches.length ∧
        atLeast k branches = threshold k branches) := by
  unfold atLeast
  by_cases none : k ≤ 0
  · rw [if_pos none]
    exact .inl ⟨.inl none, rfl⟩
  · by_cases many : k > branches.length
    · rw [if_neg none, if_pos many]
      exact .inl ⟨.inr many, rfl⟩
    · rw [if_neg none, if_neg many]
      right
      match branches, many with
      | [], many =>
        rw [List.length_nil] at many
        omega
      | [p], _ => exact .inl ⟨p, rfl, rfl⟩
      | p :: q :: rest, many =>
        rw [List.length_cons, List.length_cons] at many ⊢
        exact .inr ⟨by omega, by omega, by omega, rfl⟩

theorem reduced_atLeast_of_enough (some : 1 ≤ k) (enough : k ≤ branches.length)
    (each : ∀ p ∈ branches, p.Reduced) : (atLeast k branches).Reduced := by
  rcases atLeast_cases k branches with ⟨none | many, -⟩ | ⟨p, rfl, same⟩ | ⟨-, -, several, same⟩
  · omega
  · omega
  · rw [same]
    exact each p List.mem_cons_self
  · rw [same]
    exact .threshold some enough several each

theorem isDecided_or_reduced_atLeast (each : ∀ p ∈ branches, p.Reduced) :
    (atLeast k branches).isDecided = true ∨ (atLeast k branches).Reduced := by
  rcases atLeast_cases k branches with ⟨-, decided⟩ | ⟨p, rfl, same⟩ | ⟨some, enough, -, -⟩
  · exact .inl decided
  · rw [same]
    exact .inr (each p List.mem_cons_self)
  · exact .inr (reduced_atLeast_of_enough some enough each)

/-- A normal form is decided as a whole or reduced. -/
theorem isDecided_or_reduced_normalized (p : Policy) :
    p.normalized.isDecided = true ∨ p.normalized.Reduced := by
  induction p with
  | leaf c attached =>
    cases decided : (leaf c attached).isDecided with
    | true => exact .inl decided
    | false => exact .inr (.leaf decided)
  | threshold k branches ih =>
    rw [normalized_threshold]
    apply isDecided_or_reduced_atLeast
    intro q member
    obtain ⟨n, normal, replaces⟩ := mem_spread member
    obtain ⟨p, inside, rfl⟩ := List.mem_map.1 normal
    exact reduced_merged (ih p inside) q replaces

/-- Where nothing is decided, a branch takes nothing off the number needed, and adds to it by no more
than it adds to the branches. -/
theorem merged_bounds_of_reduced (isAnd isOr : Bool) {p : Policy} (reduced : p.Reduced) :
    0 ≤ (merged isAnd isOr p).1 ∧
      1 + (merged isAnd isOr p).1 ≤ (merged isAnd isOr p).2.length := by
  cases reduced with
  | leaf undecided =>
    rw [merged_of_kept undecided (fun _ => rfl) (fun _ => rfl), List.length_singleton]
    omega
  | threshold some enough several each =>
    rw [merged]
    split
    · dsimp only
      omega
    · split
      · dsimp only
        omega
      · rw [List.length_singleton]
        omega

theorem shift_bounds_of_reduced (isAnd isOr : Bool) {ps : List Policy}
    (each : ∀ p ∈ ps, p.Reduced) :
    0 ≤ shift isAnd isOr ps ∧ ps.length + shift isAnd isOr ps ≤ (spread isAnd isOr ps).length := by
  induction ps with
  | nil => exact ⟨Int.le_refl 0, Int.le_refl 0⟩
  | cons p rest ih =>
    obtain ⟨first, others⟩ := List.forall_mem_cons.1 each
    have head := merged_bounds_of_reduced isAnd isOr first
    have tail := ih others
    rw [shift_cons, spread_cons, List.length_append, List.length_cons]
    omega

/-- A pass over a reduced policy leaves a reduced policy. -/
theorem Reduced.normalized {p : Policy} (reduced : p.Reduced) : p.normalized.Reduced := by
  induction reduced with
  | leaf undecided => exact .leaf undecided
  | @threshold k branches some enough several _ ih =>
    have each : ∀ n ∈ branches.map Policy.normalized, n.Reduced := List.forall_mem_map.2 ih
    have bounds := shift_bounds_of_reduced (k = branches.length) (k = 1) each
    rw [List.length_map] at bounds
    rw [normalized_threshold, stillNeeded_of_nonneg (by omega), change_eq_shift]
    apply reduced_atLeast_of_enough
    · omega
    · omega
    · intro q member
      obtain ⟨n, normal, replaces⟩ := mem_spread member
      exact reduced_merged (.inr (each n normal)) q replaces

/-! ## When a pass leaves a flat policy -/

theorem Flat.merged {p q : Policy} (flat : p.Flat) (member : q ∈ (merged isAnd isOr p).2) :
    q.Flat := by
  rcases mem_merged member with ⟨rfl, -⟩ | ⟨k, branches, rfl, inside, -⟩
  · exact flat
  · cases flat with
    | threshold conjunctions disjunctions each => exact each q inside

/-- A flat policy gives way to no conjunction if it gives way as a conjunction only. -/
theorem Flat.isConjunction_merged {p q : Policy} (flat : p.Flat)
    (member : q ∈ (Policy.merged true false p).2) : q.isConjunction = false := by
  rcases mem_merged member with ⟨rfl, -, other, -⟩ | ⟨k, branches, rfl, inside, kind⟩
  · exact other rfl
  · cases flat with
    | threshold conjunctions disjunctions each =>
      rcases kind with ⟨-, all⟩ | ⟨⟨⟩, -⟩
      exact conjunctions all q inside

theorem Flat.isDisjunction_merged {p q : Policy} (flat : p.Flat)
    (member : q ∈ (Policy.merged false true p).2) : q.isDisjunction = false := by
  rcases mem_merged member with ⟨rfl, -, -, other⟩ | ⟨k, branches, rfl, inside, kind⟩
  · exact other rfl
  · cases flat with
    | threshold conjunctions disjunctions each =>
      rcases kind with ⟨⟨⟩, -⟩ | ⟨-, one⟩
      exact disjunctions one q inside

theorem flat_atLeast (each : ∀ p ∈ branches, p.Flat)
    (conjunctions : k = branches.length → 2 ≤ branches.length →
      ∀ p ∈ branches, p.isConjunction = false)
    (disjunctions : k = 1 → 2 ≤ branches.length → ∀ p ∈ branches, p.isDisjunction = false) :
    (atLeast k branches).Flat := by
  rcases atLeast_cases k branches with ⟨-, decided⟩ | ⟨p, rfl, same⟩ | ⟨-, -, several, same⟩
  · cases made : atLeast k branches with
    | leaf c attached => exact .leaf c attached
    | threshold k' branches' =>
      rw [made] at decided
      cases decided
  · rw [same]
    exact each p List.mem_cons_self
  · rw [same]
    exact .threshold (fun all => conjunctions all several) (fun one => disjunctions one several)
      each

/-- Unless disjunctions give way, no more branches are left than were there, apart from the change to
the number needed. -/
theorem length_spread_le (isAnd : Bool) (ps : List Policy) :
    (spread isAnd false ps).length ≤ ps.length + shift isAnd false ps := by
  have single (p : Policy) :
      (Policy.merged isAnd false p).2.length ≤ 1 + (Policy.merged isAnd false p).1 := by
    cases p with
    | leaf c attached => cases c <;> simp [Policy.merged]
    | threshold k branches =>
      rw [merged]
      split
      · next conjunction =>
        dsimp only
        omega
      · rw [if_neg (by simp), List.length_singleton]
        exact Int.le_refl 1
  induction ps with
  | nil => exact Int.le_refl 0
  | cons p rest ih =>
    have head := single p
    rw [shift_cons, spread_cons, List.length_append, List.length_cons]
    omega

/-- Unless conjunctions give way, the number needed does not grow. -/
theorem shift_nonpos (isOr : Bool) (ps : List Policy) : shift false isOr ps ≤ 0 := by
  have single (p : Policy) : (Policy.merged false isOr p).1 ≤ 0 := by
    cases p with
    | leaf c attached => cases c <;> simp [Policy.merged]
    | threshold k branches =>
      rw [merged, if_neg (by simp)]
      split <;> exact Int.le_refl 0
  induction ps with
  | nil => exact Int.le_refl 0
  | cons p rest ih =>
    have head := single p
    rw [shift_cons]
    omega

/-- Branches that stay as they are change nothing. -/
theorem spread_of_kept (isAnd isOr : Bool) {ps : List Policy}
    (undecided : ∀ p ∈ ps, p.isDecided = false)
    (notAnd : isAnd = true → ∀ p ∈ ps, p.isConjunction = false)
    (notOr : isOr = true → ∀ p ∈ ps, p.isDisjunction = false) :
    shift isAnd isOr ps = 0 ∧ spread isAnd isOr ps = ps := by
  induction ps with
  | nil => exact ⟨rfl, rfl⟩
  | cons p rest ih =>
    have first : Policy.merged isAnd isOr p = (0, [p]) :=
      merged_of_kept (undecided p List.mem_cons_self) (fun yes => notAnd yes p List.mem_cons_self)
        (fun yes => notOr yes p List.mem_cons_self)
    obtain ⟨none, same⟩ := ih (fun q inside => undecided q (List.mem_cons_of_mem p inside))
      (fun yes q inside => notAnd yes q (List.mem_cons_of_mem p inside))
      (fun yes q inside => notOr yes q (List.mem_cons_of_mem p inside))
    rw [shift_cons, spread_cons, first, none, same]
    exact ⟨rfl, rfl⟩

/-- A threshold over a single branch that is flat leaves a flat policy, whether the branch gives way as
a conjunction or as a disjunction. -/
theorem flat_atLeast_alone {p : Policy} (flat : p.Flat) :
    (atLeast (1 + (Policy.merged true true p).1) (Policy.merged true true p).2).Flat := by
  cases flat with
  | leaf c attached => cases c <;> exact .leaf _ _
  | @threshold k branches conjunctions disjunctions each =>
    by_cases all : k = branches.length
    · rw [Policy.merged, if_pos ⟨rfl, all⟩]
      refine flat_atLeast each (fun _ _ => conjunctions all) (fun one several => ?_)
      dsimp only at one several
      omega
    · by_cases one : k = 1
      · rw [Policy.merged, if_neg (fun both => all both.2), if_pos ⟨rfl, one⟩]
        refine flat_atLeast each (fun all' several => ?_) (fun _ _ => disjunctions one)
        dsimp only at all' several
        omega
      · rw [Policy.merged, if_neg (fun both => all both.2), if_neg (fun both => one both.2)]
        exact .threshold conjunctions disjunctions each

/-- If the branches of a threshold come out flat, then so does the threshold, unless it asks for some
of them and loses one that is decided. -/
theorem flat_normalized_threshold
    (exactly : stillNeeded k (change k branches) = k + change k branches)
    (kept : 1 < k → k < branches.length → ∀ p ∈ branches, p.normalized.isDecided = false)
    (flat : ∀ p ∈ branches, p.normalized.Flat) : (threshold k branches).normalized.Flat := by
  have each : ∀ n ∈ branches.map normalized, n.Flat := List.forall_mem_map.2 flat
  have flatSpread (isAnd isOr : Bool) :
      ∀ q ∈ spread isAnd isOr (branches.map normalized), q.Flat := by
    intro q member
    obtain ⟨n, normal, replaces⟩ := mem_spread member
    exact (each n normal).merged replaces
  rw [normalized_threshold, exactly, change_eq_shift]
  by_cases all : k = branches.length
  · by_cases one : k = 1
    · -- A single branch is in the place of the threshold.
      obtain ⟨p, rfl⟩ : ∃ p, branches = [p] := List.length_eq_one_iff.1 (by omega)
      rw [decide_eq_true all, decide_eq_true one, one]
      have alone := flat_atLeast_alone (flat p List.mem_cons_self)
      simpa [spread, shift] using alone
    · -- All that is left of a conjunction is needed, or more.
      rw [decide_eq_true all, decide_eq_false one, all]
      have most := length_spread_le true (branches.map normalized)
      rw [List.length_map] at most
      refine flat_atLeast (flatSpread true false) ?_ (fun _ _ => by omega)
      intro _ _ q member
      obtain ⟨n, normal, replaces⟩ := mem_spread member
      exact (each n normal).isConjunction_merged replaces
  · by_cases one : k = 1
    · -- No more than one branch of a disjunction is needed.
      rw [decide_eq_false all, decide_eq_true one, one]
      have least := shift_nonpos true (branches.map normalized)
      refine flat_atLeast (flatSpread false true) (fun _ _ => by omega) ?_
      intro _ _ q member
      obtain ⟨n, normal, replaces⟩ := mem_spread member
      exact (each n normal).isDisjunction_merged replaces
    · rw [decide_eq_false all, decide_eq_false one]
      by_cases between : 1 < k ∧ k < branches.length
      · obtain ⟨none, same⟩ := spread_of_kept false false
          (List.forall_mem_map.2 (kept between.1 between.2)) nofun nofun
        rw [none, same]
        refine flat_atLeast each (fun all' => ?_) (fun one' => ?_)
        · rw [List.length_map] at all'
          omega
        · omega
      · -- Nothing is needed, or more than there is.
        have most := length_spread_le false (branches.map normalized)
        have least := shift_nonpos false (branches.map normalized)
        rw [List.length_map] at most
        refine flat_atLeast (flatSpread false false) (fun _ _ => ?_) (fun _ _ => ?_)
        · omega
        · omega

/-- A policy comes out flat if no number runs below the least word and no threshold that asks for some
of its branches loses one. -/
theorem Steady.flat_normalized {p : Policy} (steady : p.Steady) (inRange : p.InRange) :
    p.normalized.Flat := by
  induction steady with
  | leaf c attached => exact .leaf c attached
  | threshold kept _ ih =>
    cases inRange with
    | threshold room each =>
      exact flat_normalized_threshold (stillNeeded_change room) kept fun p inside =>
        ih p inside (each p inside)

/-- A reduced policy comes out flat. -/
theorem Reduced.flat_normalized {p : Policy} (reduced : p.Reduced) : p.normalized.Flat := by
  induction reduced with
  | leaf undecided => exact .leaf _ _
  | threshold some enough several each ih =>
    exact flat_normalized_threshold (stillNeeded_of_nonneg (by omega) _)
      (fun _ _ p inside => (each p inside).normalized.isDecided) ih

/-! ## When a pass changes nothing -/

/-- A pass changes nothing in a policy that is reduced and flat. -/
theorem normalized_of_reduced {p : Policy} (reduced : p.Reduced) (flat : p.Flat) :
    p.normalized = p := by
  induction reduced with
  | leaf undecided => rfl
  | @threshold k branches some enough several each ih =>
    cases flat with
    | threshold conjunctions disjunctions flatEach =>
      have same : branches.map normalized = branches := by
        calc branches.map normalized = branches.map id :=
              List.map_congr_left fun p inside => ih p inside (flatEach p inside)
          _ = branches := List.map_id branches
      obtain ⟨none, left⟩ := spread_of_kept (k = branches.length) (k = 1)
        (fun p inside => (each p inside).isDecided)
        (fun yes => conjunctions (of_decide_eq_true yes))
        (fun yes => disjunctions (of_decide_eq_true yes))
      rw [normalized_threshold, stillNeeded_of_nonneg (by omega), change_eq_shift, same, none, left,
        Int.add_zero]
      rcases atLeast_cases k branches with ⟨none | many, -⟩ | ⟨p, rfl, -⟩ | ⟨-, -, -, same⟩
      · omega
      · omega
      · rw [List.length_singleton] at several
        omega
      · exact same

/-- A second pass leaves no conjunction directly inside a conjunction and no disjunction inside a
disjunction. -/
theorem flat_normalized_normalized (p : Policy) : p.normalized.normalized.Flat := by
  rcases isDecided_or_reduced_normalized p with decided | reduced
  · cases made : p.normalized with
    | leaf c attached => exact .leaf c attached
    | threshold k branches =>
      rw [made] at decided
      cases decided
  · exact reduced.flat_normalized

/-- A policy that comes out flat stays as it is. -/
theorem normalized_normalized_of_flat {p : Policy} (flat : p.normalized.Flat) :
    p.normalized.normalized = p.normalized := by
  rcases isDecided_or_reduced_normalized p with decided | reduced
  · cases made : p.normalized with
    | leaf c attached => rfl
    | threshold k branches =>
      rw [made] at decided
      cases decided
  · exact normalized_of_reduced reduced flat

/-- A policy is in normal form after two passes: another one changes nothing, and no conjunction is
left directly inside a conjunction and no disjunction inside a disjunction. After one pass it is in
normal form just if it is flat then, and that it is if no number runs below the least word and no
threshold that asks for some of its branches loses one. -/
theorem normalized_settles (p : Policy) :
    p.normalized.normalized.normalized = p.normalized.normalized ∧
      p.normalized.normalized.Flat ∧
      (p.normalized.normalized = p.normalized ↔ p.normalized.Flat) ∧
      (p.InRange → p.Steady → p.normalized.Flat) := by
  have flat := flat_normalized_normalized p
  refine ⟨normalized_normalized_of_flat flat, flat, ⟨fun same => ?_, fun own => ?_⟩,
    fun inRange steady => steady.flat_normalized inRange⟩
  · rw [same] at flat
    exact flat
  · exact normalized_normalized_of_flat own

/-- Either of two keys, two of three keys and lock times, or two lock times that a trivial policy comes
with; what is unsatisfiable is lost. -/
def steadyChoice : Policy :=
  .threshold 1 [unsatisfiable,
    .threshold 1 [.leaf (.key (.named (utf8 "A"))) [], .leaf (.key (.named (utf8 "B"))) []],
    .threshold 2 [.leaf (.key (.named (utf8 "C"))) [], .leaf (.after 7) [], .leaf (.older 3) []],
    .threshold 2 [trivial, .threshold 2 [.leaf (.after 9) [], .leaf (.older 5) []]]]

theorem normalized_settles_steadyChoice :
    steadyChoice.InRange ∧ steadyChoice.Steady ∧ steadyChoice.normalized.Flat ∧
      steadyChoice.normalized.normalized = steadyChoice.normalized := by
  have inRange : steadyChoice.InRange := by
    refine .threshold (by decide) ?_
    simp only [List.forall_mem_cons, List.not_mem_nil, false_implies, implies_true, and_true]
    refine ⟨.leaf _ _, .threshold (by decide) ?_, .threshold (by decide) ?_,
      .threshold (by decide) ?_⟩
    · simp [InRange.leaf]
    · simp [InRange.leaf]
    · simp only [List.forall_mem_cons, List.not_mem_nil, false_implies, implies_true, and_true]
      exact ⟨.leaf _ _, .threshold (by decide) (by simp [InRange.leaf])⟩
  have steady : steadyChoice.Steady := by
    refine .threshold (fun more => absurd more (by decide)) ?_
    simp only [List.forall_mem_cons, List.not_mem_nil, false_implies, implies_true, and_true]
    refine ⟨.leaf _ _, .threshold (fun more => absurd more (by decide)) ?_,
      .threshold (fun _ _ => ?_) ?_, .threshold (fun _ fewer => absurd fewer (by decide)) ?_⟩
    · simp [Steady.leaf]
    · simp [normalized, isDecided]
    · simp [Steady.leaf]
    · simp only [List.forall_mem_cons, List.not_mem_nil, false_implies, implies_true, and_true]
      exact ⟨.leaf _ _,
        .threshold (fun _ fewer => absurd fewer (by decide)) (by simp [Steady.leaf])⟩
  obtain ⟨-, -, once, early⟩ := normalized_settles steadyChoice
  have flat := early inRange steady
  exact ⟨inRange, steady, flat, once.2 flat⟩

/-- Two of three: a policy that asks for nothing, either of two keys, and a third key. -/
def recastChoice : Policy :=
  .threshold 2 [trivial,
    .threshold 1 [.leaf (.key (.named (utf8 "A"))) [], .leaf (.key (.named (utf8 "B"))) []],
    .leaf (.key (.named (utf8 "C"))) []]

/-- Without its trivial branch the threshold asks for one of two, and the first of these is a
disjunction already: the normal form has a disjunction inside a disjunction, and a second pass spreads
its branches. -/
theorem normalized_recastChoice :
    ¬ recastChoice.normalized.Flat ∧
      recastChoice.normalized.normalized ≠ recastChoice.normalized := by
  have nested : ¬ recastChoice.normalized.Flat := by
    intro flat
    cases flat with
    | threshold conjunctions disjunctions each =>
      exact absurd (disjunctions rfl _ List.mem_cons_self) (by decide)
  refine ⟨nested, fun same => nested ?_⟩
  rw [← same]
  exact flat_normalized_normalized recastChoice

end LockScript.Policy
