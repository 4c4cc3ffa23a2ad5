import LockScript.Proofs.Typing.Invariants

/-!
The rules of the types respect subtypes.

A type is a subtype of another if it promises at least as much. No rule asks for less where more is
promised, and what a rule makes of better parts is better itself: each is monotone in all its parts
together. This is not plain from the rules, which compare inputs and dissatisfactions for equality.
It holds since nothing else is below what they compare with, or else all that is below is treated
alike.
-/

namespace LockScript

/-! ## Inputs -/

namespace Input

variable {i j k l l' r r' x x' y y' z z' : Input}

theorem isSubtype_iff : i.isSubtype j = true ↔
    i = j ∨ j = .any ∨ i = .oneNonZero ∧ (j = .one ∨ j = .anyNonZero) := by
  simp [isSubtype, or_assoc]

@[simp] theorem isSubtype_refl (i : Input) : i.isSubtype i = true := by
  simp [isSubtype]

@[simp] theorem isSubtype_any (i : Input) : i.isSubtype .any = true := by
  simp [isSubtype]

theorem isSubtype_trans (first : i.isSubtype j = true) (second : j.isSubtype k = true) :
    i.isSubtype k = true := by
  rw [isSubtype_iff] at *
  grind

/-- Nothing else may stand where nothing is taken. -/
theorem eq_zero_of_isSubtype (below : i.isSubtype .zero = true) : i = .zero := by
  simpa [isSubtype] using below

/-- What takes nothing may not stand where one element is taken. -/
theorem ne_zero_of_isSubtype_one (below : i.isSubtype .one = true) : i ≠ .zero := by
  rintro rfl
  cases below

/-- What takes its first element to be nonzero stands only for the like, or for anything. -/
theorem nonZero_of_isSubtype (below : i.isSubtype j = true)
    (nonZero : j = .oneNonZero ∨ j = .anyNonZero) : i = .oneNonZero ∨ i = .anyNonZero := by
  rw [isSubtype_iff] at below
  grind

theorem andThen_mono (left : l.isSubtype l' = true) (right : r.isSubtype r' = true) :
    (l.andThen r).isSubtype (l'.andThen r') = true := by
  have first : (l.andThen r).isSubtype (l'.andThen r) = true := by
    rcases isSubtype_iff.1 left with rfl | rfl | ⟨rfl, rfl | rfl⟩
    · exact isSubtype_refl _
    · exact isSubtype_any _
    · cases r <;> simp [andThen, isSubtype]
    · cases r <;> simp [andThen, isSubtype]
  refine isSubtype_trans first ?_
  rcases isSubtype_iff.1 right with rfl | rfl | ⟨rfl, rfl | rfl⟩
  · exact isSubtype_refl _
  · cases l' <;> cases r <;> simp [andThen, isSubtype]
  · cases l' <;> simp [andThen, isSubtype]
  · cases l' <;> simp [andThen, isSubtype]

/-- Inputs that are graded as nothing, one element or any number get better with their grades. To
be graded as nothing is not better than as one element. -/
theorem graded_mono {none none' one one' : Prop} [Decidable none] [Decidable none']
    [Decidable one] [Decidable one'] (toNone : none' → none) (toOne : one' → one ∧ ¬ none) :
    isSubtype (if none then .zero else if one then .one else .any)
      (if none' then .zero else if one' then .one else .any) = true := by
  by_cases nothing : none'
  · rw [if_pos nothing, if_pos (toNone nothing)]
    rfl
  · rw [if_neg nothing]
    by_cases single : one'
    · obtain ⟨holds, some⟩ := toOne single
      rw [if_pos single, if_neg some, if_pos holds]
      rfl
    · rw [if_neg single]
      exact isSubtype_any _

theorem both_mono (left : l.isSubtype l' = true) (right : r.isSubtype r' = true) :
    (l.both r).isSubtype (l'.both r') = true := by
  apply graded_mono
  · rintro ⟨rfl, rfl⟩
    exact ⟨eq_zero_of_isSubtype left, eq_zero_of_isSubtype right⟩
  · rintro (⟨rfl, one⟩ | ⟨one, rfl⟩)
    · have one := isSubtype_trans right one
      exact ⟨.inl ⟨eq_zero_of_isSubtype left, one⟩, fun none => ne_zero_of_isSubtype_one one none.2⟩
    · have one := isSubtype_trans left one
      exact ⟨.inr ⟨one, eq_zero_of_isSubtype right⟩, fun none => ne_zero_of_isSubtype_one one none.1⟩

theorem orElse_mono (left : l.isSubtype l' = true) (right : r.isSubtype r' = true) :
    (l.orElse r).isSubtype (l'.orElse r') = true := by
  apply graded_mono
  · rintro ⟨rfl, rfl⟩
    exact ⟨eq_zero_of_isSubtype left, eq_zero_of_isSubtype right⟩
  · rintro ⟨one, rfl⟩
    have one := isSubtype_trans left one
    exact ⟨⟨one, eq_zero_of_isSubtype right⟩, fun none => ne_zero_of_isSubtype_one one none.1⟩

theorem branch_mono (first : x.isSubtype x' = true) (second : y.isSubtype y' = true)
    (third : z.isSubtype z' = true) : (x.branch y z).isSubtype (x'.branch y' z') = true := by
  apply graded_mono
  · rintro ⟨rfl, rfl, rfl⟩
    exact ⟨eq_zero_of_isSubtype first, eq_zero_of_isSubtype second, eq_zero_of_isSubtype third⟩
  · rintro (⟨rfl, one, one'⟩ | ⟨one, rfl, rfl⟩)
    · have one := isSubtype_trans second one
      have one' := isSubtype_trans third one'
      exact ⟨.inl ⟨eq_zero_of_isSubtype first, one, one'⟩,
        fun none => ne_zero_of_isSubtype_one one none.2.1⟩
    · have one := isSubtype_trans first one
      exact ⟨.inr ⟨one, eq_zero_of_isSubtype second, eq_zero_of_isSubtype third⟩,
        fun none => ne_zero_of_isSubtype_one one none.1⟩

theorem choice_mono (left : l.isSubtype l' = true) (right : r.isSubtype r' = true) :
    isSubtype (if l = .zero ∧ r = .zero then .one else .any)
      (if l' = .zero ∧ r' = .zero then .one else .any) = true := by
  by_cases none : l' = .zero ∧ r' = .zero
  · obtain ⟨rfl, rfl⟩ := none
    rw [eq_zero_of_isSubtype left, eq_zero_of_isSubtype right]
    exact isSubtype_refl _
  · rw [if_neg none]
    exact isSubtype_any _

/-! ### Any number of parts -/

/-- The number of elements that several fragments take together. -/
def total (is : List Input) : Nat := (is.map count).foldr (· + ·) 0

theorem all_eq (is : List Input) :
    all is = if total is = 0 then .zero else if total is = 1 then .one else .any := by
  unfold all total
  split <;> simp_all

theorem total_cons (i : Input) (is : List Input) : total (i :: is) = i.count + total is := rfl

/-- What stands where at most one element is taken takes as many. -/
theorem count_of_isSubtype (below : i.isSubtype j = true) (few : j.count ≤ 1) :
    i.count = j.count := by
  rcases isSubtype_iff.1 below with rfl | rfl | ⟨rfl, rfl | rfl⟩
  · rfl
  · cases few with
    | step few => cases few
  · rfl
  · cases few with
    | step few => cases few

theorem total_of_isSubtype {is js : List Input}
    (each : List.Forall₂ (fun i j => i.isSubtype j = true) is js) (few : total js ≤ 1) :
    total is = total js := by
  induction each with
  | nil => rfl
  | cons head _ ih =>
    rw [total_cons] at few
    rw [total_cons, total_cons, count_of_isSubtype head (by omega), ih (by omega)]

theorem all_mono {is js : List Input}
    (each : List.Forall₂ (fun i j => i.isSubtype j = true) is js) :
    (all is).isSubtype (all js) = true := by
  rw [all_eq, all_eq]
  apply graded_mono
  · intro none
    rw [total_of_isSubtype each (by omega), none]
  · intro one
    rw [total_of_isSubtype each (by omega)]
    omega

end Input

/-! ## Correctness types -/

namespace Correctness

variable {c d l l' r r' x x' y y' z z' t : Correctness}

/-- What it takes to be a subtype: the same base, a better input, and no property less. -/
theorem isSubtype_iff : c.isSubtype d = true ↔ c.base = d.base ∧ c.input.isSubtype d.input = true ∧
    (d.dissatisfiable = true → c.dissatisfiable = true) ∧ (d.unit = true → c.unit = true) := by
  unfold isSubtype
  cases c.dissatisfiable <;> cases d.dissatisfiable <;> cases c.unit <;> cases d.unit <;> simp

theorem isSubtype_refl (c : Correctness) : c.isSubtype c = true := by
  simp [isSubtype_iff]

theorem wrap_mono (below : c.isSubtype d = true) {w : Wrapper} (accepted : wrap w d = .ok t) :
    ∃ s, wrap w c = .ok s ∧ s.isSubtype t = true := by
  obtain ⟨base, input, dissat, unit⟩ := isSubtype_iff.1 below
  cases w with
  | alt =>
    obtain ⟨fits, rfl⟩ := wrap_alt_iff.1 accepted
    exact ⟨_, wrap_alt_iff.2 ⟨base.trans fits, rfl⟩, isSubtype_iff.2 ⟨rfl, rfl, dissat, unit⟩⟩
  | swap =>
    obtain ⟨fits, one, rfl⟩ := wrap_swap_iff.1 accepted
    exact ⟨_, wrap_swap_iff.2 ⟨base.trans fits, Input.isSubtype_trans input one, rfl⟩,
      isSubtype_iff.2 ⟨rfl, rfl, dissat, unit⟩⟩
  | check =>
    obtain ⟨fits, rfl⟩ := wrap_check_iff.1 accepted
    exact ⟨_, wrap_check_iff.2 ⟨base.trans fits, rfl⟩, isSubtype_iff.2 ⟨rfl, input, dissat, id⟩⟩
  | dupIf =>
    obtain ⟨fits, none, rfl⟩ := wrap_dupIf_iff.1 accepted
    rw [none] at input
    exact ⟨_, wrap_dupIf_iff.2 ⟨base.trans fits, Input.eq_zero_of_isSubtype input, rfl⟩,
      isSubtype_refl _⟩
  | verify =>
    obtain ⟨fits, rfl⟩ := wrap_verify_iff.1 accepted
    exact ⟨_, wrap_verify_iff.2 ⟨base.trans fits, rfl⟩, isSubtype_iff.2 ⟨rfl, input, id, id⟩⟩
  | nonZero =>
    obtain ⟨fits, filled, rfl⟩ := wrap_nonZero_iff.1 accepted
    exact ⟨_, wrap_nonZero_iff.2 ⟨base.trans fits, Input.nonZero_of_isSubtype input filled, rfl⟩,
      isSubtype_iff.2 ⟨rfl, input, id, unit⟩⟩
  | zeroNotEqual =>
    obtain ⟨fits, rfl⟩ := wrap_zeroNotEqual_iff.1 accepted
    exact ⟨_, wrap_zeroNotEqual_iff.2 ⟨base.trans fits, rfl⟩,
      isSubtype_iff.2 ⟨rfl, input, dissat, id⟩⟩

/-- Two properties that are each kept are kept together. -/
theorem and_mono {a a' b b' : Bool} (first : a' = true → a = true) (second : b' = true → b = true) :
    (a' && b') = true → (a && b) = true := by
  simp only [Bool.and_eq_true]
  exact And.imp first second

theorem or_mono {a a' b b' : Bool} (first : a' = true → a = true) (second : b' = true → b = true) :
    (a' || b') = true → (a || b) = true := by
  simp only [Bool.or_eq_true]
  exact Or.imp first second

theorem pair_mono (left : l.isSubtype l' = true) (right : r.isSubtype r' = true) {op : Combinator}
    (accepted : pair op l' r' = .ok t) : ∃ s, pair op l r = .ok s ∧ s.isSubtype t = true := by
  obtain ⟨base, input, dissat, unit⟩ := isSubtype_iff.1 left
  obtain ⟨base', input', dissat', unit'⟩ := isSubtype_iff.1 right
  cases op with
  | andV =>
    obtain ⟨verifies, notBelow, rfl⟩ := pair_andV_iff.1 accepted
    exact ⟨_, pair_andV_iff.2 ⟨base.trans verifies, base' ▸ notBelow, rfl⟩,
      isSubtype_iff.2 ⟨base', Input.andThen_mono input input', id, unit'⟩⟩
  | andB =>
    obtain ⟨fits, fits', rfl⟩ := pair_andB_iff.1 accepted
    exact ⟨_, pair_andB_iff.2 ⟨base.trans fits, base'.trans fits', rfl⟩,
      isSubtype_iff.2 ⟨rfl, Input.andThen_mono input input', and_mono dissat dissat', id⟩⟩
  | orB =>
    obtain ⟨fits, fits', can, can', rfl⟩ := pair_orB_iff.1 accepted
    exact ⟨_, pair_orB_iff.2 ⟨base.trans fits, base'.trans fits', dissat can, dissat' can', rfl⟩,
      isSubtype_iff.2 ⟨rfl, Input.both_mono input input', id, id⟩⟩
  | orD =>
    obtain ⟨fits, fits', can, one, rfl⟩ := pair_orD_iff.1 accepted
    exact ⟨_, pair_orD_iff.2 ⟨base.trans fits, base'.trans fits', dissat can, unit one, rfl⟩,
      isSubtype_iff.2 ⟨rfl, Input.orElse_mono input input', dissat', unit'⟩⟩
  | orC =>
    obtain ⟨fits, fits', can, one, rfl⟩ := pair_orC_iff.1 accepted
    exact ⟨_, pair_orC_iff.2 ⟨base.trans fits, base'.trans fits', dissat can, unit one, rfl⟩,
      isSubtype_iff.2 ⟨rfl, Input.orElse_mono input input', id, id⟩⟩
  | orI =>
    obtain ⟨same, notBelow, rfl⟩ := pair_orI_iff.1 accepted
    exact ⟨_, pair_orI_iff.2 ⟨base.trans (same.trans base'.symm), base ▸ notBelow, rfl⟩,
      isSubtype_iff.2 ⟨base, Input.choice_mono input input', or_mono dissat dissat',
        and_mono unit unit'⟩⟩

theorem andor_mono (first : x.isSubtype x' = true) (second : y.isSubtype y' = true)
    (third : z.isSubtype z' = true) (accepted : andor x' y' z' = .ok t) :
    ∃ s, andor x y z = .ok s ∧ s.isSubtype t = true := by
  obtain ⟨base, input, dissat, unit⟩ := isSubtype_iff.1 first
  obtain ⟨base', input', -, unit'⟩ := isSubtype_iff.1 second
  obtain ⟨base'', input'', dissat'', unit''⟩ := isSubtype_iff.1 third
  obtain ⟨fits, same, notBelow, can, one, rfl⟩ := andor_iff.1 accepted
  exact ⟨_, andor_iff.2 ⟨base.trans fits, base'.trans (same.trans base''.symm), base' ▸ notBelow,
      dissat can, unit one, rfl⟩,
    isSubtype_iff.2 ⟨base', Input.branch_mono input input' input'', dissat'', and_mono unit' unit''⟩⟩

theorem checkSub_mono (below : c.isSubtype d = true) {index : Nat}
    (accepted : d.checkSub index = .ok ()) : c.checkSub index = .ok () := by
  obtain ⟨base, -, dissat, unit⟩ := isSubtype_iff.1 below
  obtain ⟨fits, one, can⟩ := (checkSub_iff index).1 accepted
  exact (checkSub_iff index).2 ⟨base.trans fits, unit one, dissat can⟩

theorem checkSubs_mono {cs ds : List Correctness}
    (each : List.Forall₂ (fun c d => c.isSubtype d = true) cs ds) {index : Nat}
    (accepted : checkSubs index ds = .ok ()) : checkSubs index cs = .ok () := by
  induction each generalizing index with
  | nil => rfl
  | @cons c d _ _ head _ ih =>
    rw [checkSubs] at accepted ⊢
    cases own : d.checkSub index with
    | error m =>
      rw [own] at accepted
      cases accepted
    | ok u =>
      rw [own] at accepted
      rw [checkSub_mono head own]
      exact ih accepted

theorem ofSubs_mono {cs ds : List Correctness}
    (each : List.Forall₂ (fun c d => c.isSubtype d = true) cs ds) :
    (ofSubs cs).isSubtype (ofSubs ds) = true := by
  have inputs : List.Forall₂ (fun i j => i.isSubtype j = true) (cs.map input) (ds.map input) := by
    rw [List.forall₂_map_left_iff, List.forall₂_map_right_iff]
    exact each.imp fun _ _ below => (isSubtype_iff.1 below).2.1
  exact isSubtype_iff.2 ⟨rfl, Input.all_mono inputs, id, id⟩

end Correctness

/-! ## Malleability types -/

/-- Only what is unknown leaves a choice. -/
theorem Dissat.isSubtype_iff {d e : Dissat} : d.isSubtype e = true ↔ (e ≠ .unknown → d = e) := by
  by_cases known : e = .unknown <;> simp [isSubtype, known]

namespace Malleability

variable {m n l l' r r' x x' y y' z z' : Malleability}

/-- What it takes to be a subtype: the same dissatisfactions where they are known, and no property
less. -/
theorem isSubtype_iff : m.isSubtype n = true ↔ (n.dissat ≠ .unknown → m.dissat = n.dissat) ∧
    (n.safe = true → m.safe = true) ∧ (n.nonMalleable = true → m.nonMalleable = true) := by
  rw [← Dissat.isSubtype_iff, isSubtype]
  cases m.safe <;> cases n.safe <;> cases m.nonMalleable <;> cases n.nonMalleable <;> simp

theorem isSubtype_refl (m : Malleability) : m.isSubtype m = true := by
  simp [isSubtype_iff]

theorem withDissat_mono (below : m.isSubtype n = true) :
    m.withDissat.isSubtype n.withDissat = true := by
  obtain ⟨dissat, safe, nonMalleable⟩ := isSubtype_iff.1 below
  refine isSubtype_iff.2 ⟨?_, safe, nonMalleable⟩
  unfold withDissat
  grind

theorem wrap_mono (below : m.isSubtype n = true) (w : Wrapper) :
    (wrap w m).isSubtype (wrap w n) = true := by
  obtain ⟨dissat, safe, nonMalleable⟩ := isSubtype_iff.1 below
  cases w with
  | alt => exact below
  | swap => exact below
  | check => exact isSubtype_iff.2 ⟨dissat, id, nonMalleable⟩
  | dupIf => exact withDissat_mono below
  | verify => exact isSubtype_iff.2 ⟨fun _ => rfl, safe, nonMalleable⟩
  | nonZero => exact withDissat_mono below
  | zeroNotEqual => exact below

theorem andDissat_mono (left : l.isSubtype l' = true) (right : r.isSubtype r' = true)
    (known : andDissat l' r' ≠ .unknown) : andDissat l r = andDissat l' r' := by
  obtain ⟨dissat, safe, -⟩ := isSubtype_iff.1 left
  obtain ⟨dissat', safe', -⟩ := isSubtype_iff.1 right
  unfold andDissat at *
  grind

theorem choiceDissat_mono {d d' e e' : Dissat} (first : d' ≠ .unknown → d = d')
    (second : e' ≠ .unknown → e = e') (known : choiceDissat d' e' ≠ .unknown) :
    choiceDissat d e = choiceDissat d' e' := by
  unfold choiceDissat at *
  grind

theorem andorDissat_mono (first : x.isSubtype x' = true) (second : y.isSubtype y' = true)
    (third : z.isSubtype z' = true) (known : andorDissat x' y' z' ≠ .unknown) :
    andorDissat x y z = andorDissat x' y' z' := by
  obtain ⟨-, safe, -⟩ := isSubtype_iff.1 first
  obtain ⟨dissat', -, -⟩ := isSubtype_iff.1 second
  obtain ⟨dissat'', -, -⟩ := isSubtype_iff.1 third
  unfold andorDissat at *
  grind

theorem pair_mono (left : l.isSubtype l' = true) (right : r.isSubtype r' = true)
    (op : Combinator) : (pair op l r).isSubtype (pair op l' r') = true := by
  have and := andDissat_mono left right
  obtain ⟨dissat, safe, nonMalleable⟩ := isSubtype_iff.1 left
  obtain ⟨dissat', safe', nonMalleable'⟩ := isSubtype_iff.1 right
  have choice := choiceDissat_mono dissat dissat'
  cases op <;> simp only [isSubtype_iff, pair, Bool.and_eq_true, Bool.or_eq_true, decide_eq_true_eq]
    <;> grind

theorem andor_mono (first : x.isSubtype x' = true) (second : y.isSubtype y' = true)
    (third : z.isSubtype z' = true) : (andor x y z).isSubtype (andor x' y' z') = true := by
  have known := andorDissat_mono first second third
  obtain ⟨dissat, safe, nonMalleable⟩ := isSubtype_iff.1 first
  obtain ⟨dissat', safe', nonMalleable'⟩ := isSubtype_iff.1 second
  obtain ⟨dissat'', safe'', nonMalleable''⟩ := isSubtype_iff.1 third
  simp only [isSubtype_iff, andor, Bool.and_eq_true, Bool.or_eq_true, decide_eq_true_eq]
  grind

/-! ### Any number of parts -/

section Thresholds

variable {ms ns : List Malleability}
  (each : List.Forall₂ (fun m n => m.isSubtype n = true) ms ns)
include each

theorem countSafe_mono : countSafe ns ≤ countSafe ms := by
  unfold countSafe
  induction each with
  | nil => exact Nat.le_refl 0
  | cons head _ ih =>
    have safe := (isSubtype_iff.1 head).2.1
    rw [List.countP_cons, List.countP_cons]
    split
    · next holds =>
      rw [if_pos (safe holds)]
      omega
    · omega

/-- What holds of each part and is kept below it holds of each part below. -/
theorem all_mono {p : Malleability → Bool}
    (kept : ∀ {m n}, m.isSubtype n = true → p n = true → p m = true) (all : ns.all p = true) :
    ms.all p = true := by
  induction each with
  | nil => rfl
  | cons head _ ih =>
    rw [List.all_cons, Bool.and_eq_true] at all ⊢
    exact ⟨kept head all.1, ih all.2⟩

theorem threshold_mono (k : Int) :
    (threshold k (ms.length : Int) ms).isSubtype (threshold k (ns.length : Int) ns) = true := by
  have safe := countSafe_mono each
  have most : countSafe ms ≤ ms.length := List.countP_le_length
  have length := each.length_eq
  have unique := all_mono each (p := fun m => m.dissat = .unique) fun {m n} below only => by
    have only := of_decide_eq_true only
    have same := (isSubtype_iff.1 below).1 (by rw [only]; nofun)
    exact decide_eq_true (same.trans only)
  have nonMalleable := all_mono each (p := Malleability.nonMalleable) fun below =>
    (isSubtype_iff.1 below).2.2
  rw [isSubtype_iff]
  simp only [threshold, Counting.toInt_int, Bool.and_eq_true, decide_eq_true_eq]
  refine ⟨fun known => ?_, fun enough => ?_, fun enough => ?_⟩
  · split at known
    · next only =>
      have still : k = 1 ∨ (countSafe ms : Int) = ms.length := by omega
      rw [if_pos only, if_pos ⟨unique only.1, still⟩]
    · exact absurd rfl known
  · omega
  · exact ⟨⟨nonMalleable enough.1.1, unique enough.1.2⟩, by omega⟩

end Thresholds

end Malleability

/-! ## Types -/

theorem ScriptType.isSubtype_iff {t u : ScriptType} : t.isSubtype u = true ↔
    t.corr.isSubtype u.corr = true ∧ t.mall.isSubtype u.mall = true := by
  simp [isSubtype]

theorem ScriptType.isSubtype_refl (t : ScriptType) : t.isSubtype t = true :=
  isSubtype_iff.2 ⟨t.corr.isSubtype_refl, t.mall.isSubtype_refl⟩

end LockScript
