import LockScript.Proofs.Typing.Courses

/-!
The invariants of the types.

Facts are held against a number of invariants when they are made. Here the invariants are spelled
out, those of the types (`ScriptType.Coherent`) and those of the costs (`Cost.Covered`). Every form of
fragment keeps the first: where the parts keep them and the rule accepts the parts, nothing is ever
found to be broken. The second hold of every cost that is counted exactly, since a count is that of a
course (`Fragment.covered_cost`).
-/

namespace LockScript

/-! ## The invariants of costs -/

namespace Cost

variable {ν : Type} [Counting ν] {c : Cost ν}

/-- What is run is never less than what is counted in any case. -/
structure Covered (c : Cost ν) : Prop where
  sat : ∀ n ∈ c.satOps, Counting.toInt c.staticOps ≤ Counting.toInt n
  dissat : ∀ n ∈ c.dissatOps, Counting.toInt c.staticOps ≤ Counting.toInt n

theorem covered_iff : c.violation? = none ↔ c.Covered := by
  have notBelow (a : OpCount ν) :
      ¬ (a.any fun n => Counting.toInt n < Counting.toInt c.staticOps) = true ↔
        ∀ n ∈ a, Counting.toInt c.staticOps ≤ Counting.toInt n := by
    cases a <;> simp
  simp only [violation?]
  constructor
  · intro kept
    split at kept
    · cases kept
    · next sat =>
      split at kept
      · cases kept
      · next dissat => exact ⟨(notBelow _).1 sat, (notBelow _).1 dissat⟩
  · intro covered
    rw [if_neg ((notBelow _).2 covered.sat), if_neg ((notBelow _).2 covered.dissat)]

/-- Only a count that is below the static one breaks the invariant. -/
theorem below_of_violation {v : Violation} (violated : c.violation? = some v) :
    v = .satBelowStatic ∨ v = .dissatBelowStatic := by
  simp only [violation?] at violated
  split at violated
  · exact .inl (Option.some.inj violated).symm
  · split at violated
    · exact .inr (Option.some.inj violated).symm
    · cases violated

theorem Bounded.covered {most : Int} {c : Cost Int} (bounded : c.Bounded most) : c.Covered :=
  ⟨fun n member => (bounded.sat n member).1, fun n member => (bounded.dissat n member).1⟩

end Cost

/-- An exact cost keeps the invariant, whatever the type of the fragment. -/
theorem Fragment.covered_cost (f : Fragment) : (f.cost Int).Covered := f.bounded_cost.covered

/-! ## The invariants of types -/

/-- The invariants of a type: a K is a unit and requires a signature, a V is not a unit and has no
dissatisfactions, a W has no nonzero input, and what is dissatisfiable has a dissatisfaction. -/
structure ScriptType.Coherent (t : ScriptType) : Prop where
  key : t.corr.base = .K → t.corr.unit = true ∧ t.mall.safe = true
  verify : t.corr.base = .V →
    t.corr.unit = false ∧ t.corr.dissatisfiable = false ∧ t.mall.dissat = .none
  below : t.corr.base = .W → t.corr.input ≠ .oneNonZero ∧ t.corr.input ≠ .anyNonZero
  dissatisfiable : t.corr.dissatisfiable = true → t.mall.dissat ≠ .none

theorem ScriptType.coherent_iff {t : ScriptType} :
    t.Coherent ↔ t.corr.violation? = none ∧ t.violation? = none := by
  obtain ⟨⟨base, input, dissatisfiable, unit⟩, ⟨dissat, safe, nonMalleable⟩⟩ := t
  constructor
  · rintro ⟨key, verify, below, dissats⟩
    refine ⟨?_, ?_⟩ <;>
      simp only [Correctness.violation?, ScriptType.violation?] at key verify below dissats ⊢ <;>
      grind -ring -linarith
  · rintro ⟨corr, type⟩
    refine ⟨?_, ?_, ?_, ?_⟩ <;>
      simp only [Correctness.violation?, ScriptType.violation?] at corr type ⊢ <;>
      grind -ring -linarith

theorem Facts.sound_iff {ν : Type} [Counting ν] {facts : Facts ν} :
    facts.Sound ↔ facts.type.Coherent ∧ facts.cost.Covered := by
  rw [ScriptType.coherent_iff, ← Cost.covered_iff]
  constructor
  · rintro ⟨corr, cost, type⟩
    exact ⟨⟨corr, type⟩, cost⟩
  · rintro ⟨⟨corr, type⟩, cost⟩
    exact ⟨corr, cost, type⟩

theorem Malleability.withDissat_ne_none (m : Malleability) : m.withDissat.dissat ≠ .none := by
  unfold Malleability.withDissat
  dsimp only
  split <;> nofun

namespace ScriptType.Coherent

theorem leaf (l : Leaf) : Coherent ⟨.ofLeaf l, .ofLeaf l⟩ := by
  cases l with
  | pk key => exact ⟨fun _ => ⟨rfl, rfl⟩, nofun, nofun, fun _ => nofun⟩
  | pkHash hash => exact ⟨fun _ => ⟨rfl, rfl⟩, nofun, nofun, fun _ => nofun⟩
  | zero => exact ⟨nofun, nofun, nofun, fun _ => nofun⟩
  | hashLock f image => exact ⟨nofun, nofun, nofun, fun _ => nofun⟩
  | multi k keys => exact ⟨nofun, nofun, nofun, fun _ => nofun⟩
  | _ => exact ⟨nofun, nofun, nofun, nofun⟩

theorem wrap {t : ScriptType} (coherent : t.Coherent) {w : Wrapper} {c : Correctness}
    (accepted : Correctness.wrap w t.corr = .ok c) : Coherent ⟨c, .wrap w t.mall⟩ := by
  cases w with
  | alt =>
    obtain ⟨-, rfl⟩ := Correctness.wrap_alt_iff.1 accepted
    exact ⟨nofun, nofun, fun _ => ⟨nofun, nofun⟩, coherent.dissatisfiable⟩
  | swap =>
    obtain ⟨-, -, rfl⟩ := Correctness.wrap_swap_iff.1 accepted
    exact ⟨nofun, nofun, fun _ => ⟨nofun, nofun⟩, coherent.dissatisfiable⟩
  | check =>
    obtain ⟨-, rfl⟩ := Correctness.wrap_check_iff.1 accepted
    exact ⟨nofun, nofun, nofun, coherent.dissatisfiable⟩
  | dupIf =>
    obtain ⟨-, -, rfl⟩ := Correctness.wrap_dupIf_iff.1 accepted
    exact ⟨nofun, nofun, nofun, fun _ => t.mall.withDissat_ne_none⟩
  | verify =>
    obtain ⟨-, rfl⟩ := Correctness.wrap_verify_iff.1 accepted
    exact ⟨nofun, fun _ => ⟨rfl, rfl, rfl⟩, nofun, nofun⟩
  | nonZero =>
    obtain ⟨-, -, rfl⟩ := Correctness.wrap_nonZero_iff.1 accepted
    exact ⟨nofun, nofun, nofun, fun _ => t.mall.withDissat_ne_none⟩
  | zeroNotEqual =>
    obtain ⟨-, rfl⟩ := Correctness.wrap_zeroNotEqual_iff.1 accepted
    exact ⟨nofun, nofun, nofun, coherent.dissatisfiable⟩

theorem andDissat_ne_none {l r : Malleability} (first : l.dissat ≠ .none)
    (second : r.dissat ≠ .none) : l.andDissat r ≠ .none := by
  simp only [Malleability.andDissat, first, second, false_and, if_false]
  split <;> nofun

theorem choiceDissat_ne_none {l r : Dissat} (either : l ≠ .none ∨ r ≠ .none) :
    Malleability.choiceDissat l r ≠ .none := by
  have notBoth : ¬ (l = .none ∧ r = .none) := by
    rintro ⟨rfl, rfl⟩
    rcases either with other | other <;> exact other rfl
  unfold Malleability.choiceDissat
  rw [if_neg notBoth]
  split <;> nofun

theorem pair {l r : ScriptType} (left : l.Coherent) (right : r.Coherent) {op : Combinator}
    {c : Correctness} (accepted : Correctness.pair op l.corr r.corr = .ok c) :
    Coherent ⟨c, .pair op l.mall r.mall⟩ := by
  cases op with
  | andV =>
    obtain ⟨verifies, notBelow, rfl⟩ := Correctness.pair_andV_iff.1 accepted
    refine ⟨fun key => ?_, fun verify => ?_, fun below => absurd below notBelow, nofun⟩
    · obtain ⟨unit, safe⟩ := right.key key
      exact ⟨unit, by simp [Malleability.pair, safe]⟩
    · have none := (left.verify verifies).2.2
      obtain ⟨unit, -, none'⟩ := right.verify verify
      exact ⟨unit, rfl, if_pos ⟨none, none'⟩⟩
  | andB =>
    obtain ⟨-, -, rfl⟩ := Correctness.pair_andB_iff.1 accepted
    refine ⟨nofun, nofun, nofun, fun both => ?_⟩
    obtain ⟨first, second⟩ := Bool.and_eq_true_iff.1 both
    exact andDissat_ne_none (left.dissatisfiable first) (right.dissatisfiable second)
  | orB =>
    obtain ⟨-, -, -, -, rfl⟩ := Correctness.pair_orB_iff.1 accepted
    exact ⟨nofun, nofun, nofun, fun _ => nofun⟩
  | orD =>
    obtain ⟨-, -, -, -, rfl⟩ := Correctness.pair_orD_iff.1 accepted
    exact ⟨nofun, nofun, nofun, right.dissatisfiable⟩
  | orC =>
    obtain ⟨-, -, -, -, rfl⟩ := Correctness.pair_orC_iff.1 accepted
    exact ⟨nofun, fun _ => ⟨rfl, rfl, rfl⟩, nofun, nofun⟩
  | orI =>
    obtain ⟨same, notBelow, rfl⟩ := Correctness.pair_orI_iff.1 accepted
    refine ⟨fun key => ?_, fun verify => ?_, fun below => absurd below notBelow, fun either => ?_⟩
    · obtain ⟨unit, safe⟩ := left.key key
      obtain ⟨unit', safe'⟩ := right.key (same ▸ key)
      simp [Malleability.pair, unit, safe, unit', safe']
    · obtain ⟨unit, forced, none⟩ := left.verify verify
      obtain ⟨-, forced', none'⟩ := right.verify (same ▸ verify)
      exact ⟨by simp [unit], by simp [forced, forced'], if_pos ⟨none, none'⟩⟩
    · refine choiceDissat_ne_none ?_
      rcases Bool.or_eq_true_iff.1 either with first | second
      · exact .inl (left.dissatisfiable first)
      · exact .inr (right.dissatisfiable second)

theorem andorDissat_ne_none {x y z : Malleability} (unmet : z.dissat ≠ .none) :
    Malleability.andorDissat x y z ≠ .none := by
  unfold Malleability.andorDissat
  simp only [unmet, and_false, or_self, if_false]
  split <;> nofun

theorem andor {x y z : ScriptType} (met : y.Coherent) (unmet : z.Coherent) {c : Correctness}
    (accepted : Correctness.andor x.corr y.corr z.corr = .ok c) :
    Coherent ⟨c, .andor x.mall y.mall z.mall⟩ := by
  rcases Correctness.andor_iff.1 accepted with ⟨-, same, notBelow, -, -, rfl⟩
  refine ⟨fun key => ?_, fun verify => ?_, fun below => absurd below notBelow, fun can => ?_⟩
  · rcases met.key key with ⟨unit, safe⟩
    rcases unmet.key (same ▸ key) with ⟨unit', safe'⟩
    simp [Malleability.andor, unit, safe, unit', safe']
  · rcases met.verify verify with ⟨unit, -, none⟩
    rcases unmet.verify (same ▸ verify) with ⟨-, forced, none'⟩
    refine ⟨by simp [unit], forced, ?_⟩
    simp [Malleability.andor, Malleability.andorDissat, none, none']
  · exact andorDissat_ne_none (unmet.dissatisfiable can)

theorem threshold (k n : Int) (types : List ScriptType) :
    Coherent ⟨.ofSubs (types.map corr), .threshold k n (types.map mall)⟩ := by
  refine ⟨nofun, nofun, nofun, fun _ => ?_⟩
  simp only [Malleability.threshold]
  split <;> nofun

end ScriptType.Coherent

/-! ## Facts of compositions -/

theorem Facts.coherent_threshold {ν : Type} (k n : Int) (fs : List (Facts ν)) :
    ScriptType.Coherent ⟨.ofSubs (fs.map fun x => x.type.corr),
      .threshold k n (fs.map fun x => x.type.mall)⟩ := by
  have coherent := ScriptType.Coherent.threshold k n (fs.map Facts.type)
  rw [List.map_map, List.map_map] at coherent
  exact coherent

namespace Fragment

variable {ν : Type} [Add ν] [Sub ν] [Counting ν] {x y z : Fragment} {fx fy fz : Facts ν}
  {c : Correctness}

theorem coherent_of_facts? (typed : x.facts? = .ok fx) : fx.type.Coherent :=
  (Facts.sound_iff.1 (sound_of_facts? typed)).1

theorem facts?_leaf_of_covered {l : Leaf} (checked : Facts.checkLeaf l = .ok ())
    (covered : ((leaf l).cost ν).Covered) :
    (leaf l).facts? = .ok ⟨⟨.ofLeaf l, .ofLeaf l⟩, (leaf l).cost ν⟩ := by
  rw [cost] at covered ⊢
  exact facts?_leaf_iff.2 ⟨checked, rfl, Facts.sound_iff.2 ⟨.leaf l, covered⟩⟩

theorem facts?_wrap_of_covered {w : Wrapper} (hx : x.facts? = .ok fx)
    (accepted : Correctness.wrap w fx.type.corr = .ok c)
    (covered : ((wrap w x).cost ν).Covered) :
    (wrap w x).facts? = .ok ⟨⟨c, .wrap w fx.type.mall⟩, .wrap w fx.cost⟩ := by
  rw [cost, ← cost_of_facts? hx] at covered
  exact facts?_wrap_iff.2 ⟨fx, c, hx, accepted, rfl,
    Facts.sound_iff.2 ⟨(coherent_of_facts? hx).wrap accepted, covered⟩⟩

theorem facts?_pair_of_covered {op : Combinator} (hx : x.facts? = .ok fx) (hy : y.facts? = .ok fy)
    (accepted : Correctness.pair op fx.type.corr fy.type.corr = .ok c)
    (covered : ((pair op x y).cost ν).Covered) :
    (pair op x y).facts? = .ok ⟨⟨c, .pair op fx.type.mall fy.type.mall⟩,
      .pair op fx.cost fy.cost⟩ := by
  rw [cost, ← cost_of_facts? hx, ← cost_of_facts? hy] at covered
  exact facts?_pair_iff.2 ⟨fx, fy, c, hx, hy, accepted, rfl,
    Facts.sound_iff.2 ⟨(coherent_of_facts? hx).pair (coherent_of_facts? hy) accepted, covered⟩⟩

theorem facts?_andor_of_covered (hx : x.facts? = .ok fx) (hy : y.facts? = .ok fy)
    (hz : z.facts? = .ok fz)
    (accepted : Correctness.andor fx.type.corr fy.type.corr fz.type.corr = .ok c)
    (covered : ((andor x y z).cost ν).Covered) :
    (andor x y z).facts? = .ok ⟨⟨c, .andor fx.type.mall fy.type.mall fz.type.mall⟩,
      .andor fx.cost fy.cost fz.cost⟩ := by
  rw [cost, ← cost_of_facts? hx, ← cost_of_facts? hy, ← cost_of_facts? hz] at covered
  exact facts?_andor_iff.2 ⟨fx, fy, fz, c, hx, hy, hz, accepted, rfl,
    Facts.sound_iff.2 ⟨(coherent_of_facts? hy).andor (coherent_of_facts? hz) accepted, covered⟩⟩

/-- The costs among the facts of several fragments. -/
theorem map_cost_of_facts? {subs : List Fragment} {fs : List (Facts ν)}
    (each : List.Forall₂ (fun x fx => x.facts? = .ok fx) subs fs) :
    fs.map Facts.cost = costs ν subs := by
  induction each with
  | nil => rfl
  | cons head _ ih => rw [List.map_cons, costs, ih, cost_of_facts? head]

theorem facts?_thresh_of_covered {k : Int} {subs : List Fragment} {fs : List (Facts ν)}
    (each : List.Forall₂ (fun x fx => x.facts? = .ok fx) subs fs)
    (checked : Facts.checkThreshold k fs.length = .ok ())
    (accepted : Correctness.checkSubs 0 (fs.map fun x => x.type.corr) = .ok ())
    (covered : ((thresh k subs).cost ν).Covered) :
    (thresh k subs).facts? = .ok ⟨⟨.ofSubs (fs.map fun x => x.type.corr),
        .threshold k (fs.length : Int) (fs.map fun x => x.type.mall)⟩,
      .threshold k (Counting.ofInt fs.length) (fs.map Facts.cost)⟩ := by
  rw [cost, ← map_cost_of_facts? each, each.length_eq] at covered
  exact facts?_thresh_iff.2 ⟨fs, each, checked, accepted, rfl,
    Facts.sound_iff.2 ⟨Facts.coherent_threshold k fs.length fs, covered⟩⟩

end Fragment

end LockScript
