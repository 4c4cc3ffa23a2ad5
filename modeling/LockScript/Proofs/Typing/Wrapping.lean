import LockScript.Proofs.Typing.Invariants

/-!
Costs in words.

The costs that are stored are counted in words of 64 bits, whose sums wrap around. What is only added
up, the size of the script and its operations, is the exact number up to wrapping around, and a count
is there just if the exact one is (`Cost.Stands`). A larger count of two, or the largest differences
of a threshold, can be found only among numbers that have not wrapped around. None has where all the
operations and all the keys of CHECKMULTISIGs together are a word (`Fragment.Fits`): then the costs
are those that are counted exactly, and they keep the invariants of costs.

The facts of a fragment are found in words. They are then found exactly as well, with the same type
(`Fragment.exact_of_facts?`), and the other way around where the operations are a word
(`Fragment.facts?_of_exact`).
-/

namespace LockScript

/-! ## Counts in words -/

namespace OpCount

/-- Sums of words are the exact sums up to wrapping around. -/
theorem map_ofInt_and (a b : OpCount Int) :
    (OpCount.and a b).map Int64.ofInt = OpCount.and (a.map Int64.ofInt) (b.map Int64.ofInt) := by
  cases a <;> cases b <;> simp [OpCount.and]

@[simp] theorem isSome_and {ν : Type} [Add ν] (a b : OpCount ν) :
    (OpCount.and a b).isSome = (a.isSome && b.isSome) := by
  cases a <;> cases b <;> rfl

@[simp] theorem isSome_or {ν : Type} [Counting ν] (a b : OpCount ν) :
    (OpCount.or a b).isSome = (a.isSome || b.isSome) := by
  cases a <;> cases b <;> rfl

/-- The larger of two counts that are words is found among the words. -/
theorem map_ofInt_or {a b : OpCount Int} {hi : Int} (first : a.Between 0 hi)
    (second : b.Between 0 hi) (word : hi < 0x8000000000000000) :
    (OpCount.or a b).map Int64.ofInt = OpCount.or (a.map Int64.ofInt) (b.map Int64.ofInt) := by
  cases a with
  | none => cases b <;> rfl
  | some n =>
    cases b with
    | none => rfl
    | some m =>
      have low := first n rfl
      have low' := second m rfl
      have exact : (Int64.ofInt n).toInt = n := Int64.toInt_ofInt_of_le (by omega) (by omega)
      have exact' : (Int64.ofInt m).toInt = m := Int64.toInt_ofInt_of_le (by omega) (by omega)
      simp only [OpCount.or, Option.map_some, Counting.toInt, exact, exact', Option.some.injEq]
      exact apply_ite Int64.ofInt _ _ _

theorem Between.mono {lo lo' hi hi' : Int} {a : OpCount Int} (between : a.Between lo hi)
    (below : lo' ≤ lo) (above : hi ≤ hi') : a.Between lo' hi' :=
  fun n member => ⟨Int.le_trans below (between n member).1, Int.le_trans (between n member).2 above⟩

theorem Between.and {lo lo' hi hi' : Int} {a b : OpCount Int} (first : a.Between lo hi)
    (second : b.Between lo' hi') : (OpCount.and a b).Between (lo + lo') (hi + hi') := by
  cases a with
  | none =>
    rintro n ⟨⟩
  | some i =>
    cases b with
    | none =>
      rintro n ⟨⟩
    | some j =>
      rintro n ⟨⟩
      have bounds := first i rfl
      have bounds' := second j rfl
      omega

theorem Between.plus {lo hi : Int} {a : OpCount Int} (between : a.Between lo hi) (n : Int) :
    (a.plus n).Between (lo + n) (hi + n) := by
  apply between.and
  rintro _ ⟨⟩
  omega

/-- A count in words that stands for an exact one: it is there just if the exact one is, and it is
the exact one as long as none has wrapped around. -/
structure Stands (small : Prop) (a : OpCount Int) (w : OpCount Int64) : Prop where
  isSome_eq : w.isSome = a.isSome
  eq : small → w = a.map Int64.ofInt

section Rules

variable {small : Prop} {a b : OpCount Int} {v w : OpCount Int64}

theorem stands_none : Stands small none none := ⟨rfl, fun _ => rfl⟩

theorem stands_ofInt (small : Prop) (a : OpCount Int) : Stands small a (a.map Int64.ofInt) :=
  ⟨Option.isSome_map, fun _ => rfl⟩

theorem Stands.and (first : Stands small a v) (second : Stands small b w) :
    Stands small (OpCount.and a b) (OpCount.and v w) where
  isSome_eq := by rw [isSome_and, isSome_and, first.isSome_eq, second.isSome_eq]
  eq holds := by rw [map_ofInt_and, first.eq holds, second.eq holds]

theorem Stands.plus (first : Stands small a v) (n : Int) :
    Stands small (a.plus n) (v.plus (Int64.ofInt n)) :=
  first.and (stands_ofInt small (some n))

theorem Stands.or {hi : Int} (first : Stands small a v) (second : Stands small b w)
    (bounds : a.Between 0 hi) (bounds' : b.Between 0 hi) (word : small → hi < 0x8000000000000000) :
    Stands small (OpCount.or a b) (OpCount.or v w) where
  isSome_eq := by rw [isSome_or, isSome_or, first.isSome_eq, second.isSome_eq]
  eq holds := by
    rw [map_ofInt_or bounds bounds' (word holds), first.eq holds, second.eq holds]

end Rules

end OpCount

/-! ## Costs in words -/

namespace Cost

/-- The exact numbers of a cost in words. -/
def exact (c : Cost Int64) : Cost Int where
  legacy := c.legacy
  size := c.size.toInt
  verifyForm := c.verifyForm
  staticOps := c.staticOps.toInt
  satOps := c.satOps.map Int64.toInt
  dissatOps := c.dissatOps.map Int64.toInt

/-- The difference between satisfying a part and dissatisfying it is a word. -/
def Comparable (c : Cost Int64) : Prop :=
  ∀ sat ∈ c.satOps, ∀ dissat ∈ c.dissatOps,
    -0x8000000000000000 ≤ sat.toInt - dissat.toInt ∧ sat.toInt - dissat.toInt < 0x8000000000000000

/-- Counts from zero on can be compared. -/
theorem comparable_of_nonneg {c : Cost Int64} (sat : ∀ n ∈ c.satOps, 0 ≤ n.toInt)
    (dissat : ∀ n ∈ c.dissatOps, 0 ≤ n.toInt) : c.Comparable := by
  intro s inSat d inDissat
  have low := sat s inSat
  have low' := dissat d inDissat
  have high := Int64.toInt_lt s
  have high' := Int64.toInt_lt d
  omega

section Words

variable {subs : List (Cost Int64)}

theorem satOps_exact (c : Cost Int64) : c.exact.satOps.map Int64.ofInt = c.satOps := by
  rcases c with ⟨_, _, _, _, _ | s, _⟩ <;> simp [exact]

theorem dissatOps_exact (c : Cost Int64) : c.exact.dissatOps.map Int64.ofInt = c.dissatOps := by
  rcases c with ⟨_, _, _, _, _, _ | d⟩ <;> simp [exact]

theorem isSome_dissatOps_exact (c : Cost Int64) :
    c.exact.dissatOps.isSome = c.dissatOps.isSome := Option.isSome_map

theorem map_ofInt_foldl (count : Cost Int64 → OpCount Int64) (exactly : Cost Int → OpCount Int)
    (same : ∀ c, (exactly c.exact).map Int64.ofInt = count c) (start : OpCount Int)
    (subs : List (Cost Int64)) :
    ((subs.map exact).foldl (fun n c => OpCount.and n (exactly c)) start).map Int64.ofInt =
      subs.foldl (fun n c => OpCount.and n (count c)) (start.map Int64.ofInt) := by
  induction subs generalizing start with
  | nil => rfl
  | cons c rest ih =>
    rw [List.map_cons, List.foldl_cons, List.foldl_cons, ih, OpCount.map_ofInt_and, same]

theorem map_ofInt_baseOps (subs : List (Cost Int64)) :
    (baseOps (subs.map exact)).map Int64.ofInt = baseOps subs := by
  refine map_ofInt_foldl _ (fun c => if c.dissatOps.isSome then c.dissatOps else c.satOps) ?_ _ subs
  intro c
  rw [isSome_dissatOps_exact]
  split
  · exact dissatOps_exact c
  · exact satOps_exact c

theorem sum_words (ns : List Int64) :
    Counting.sum ns = Int64.ofInt (Counting.sum (ns.map Int64.toInt)) := by
  induction ns with
  | nil => rfl
  | cons n rest ih =>
    simp only [Counting.sum, List.map_cons, List.foldr_cons, Int64.ofInt_add, Int64.ofInt_toInt]
      at ih ⊢
    rw [ih]

theorem map_toInt_insertDown (n : Int64) (ns : List Int64) :
    (insertDown n ns).map Int64.toInt = insertDown n.toInt (ns.map Int64.toInt) := by
  induction ns with
  | nil => rfl
  | cons m rest ih =>
    rw [insertDown, List.map_cons, insertDown, ← ih]
    exact apply_ite (List.map Int64.toInt) _ _ _

/-- Words are put in order by the numbers they stand for. -/
theorem map_toInt_sortDown (ns : List Int64) :
    (sortDown ns).map Int64.toInt = sortDown (ns.map Int64.toInt) := by
  induction ns with
  | nil => rfl
  | cons n rest ih => rw [sortDown, map_toInt_insertDown, ih, List.map_cons, sortDown]

theorem forcedSubs_exact (subs : List (Cost Int64)) :
    forcedSubs (subs.map exact) = forcedSubs subs := by
  rw [forcedSubs, List.countP_map]
  refine List.countP_congr fun c _ => ?_
  rw [Function.comp_apply, exact, Option.isNone_map]

theorem length_extraOps_exact (subs : List (Cost Int64)) :
    (extraOps (subs.map exact)).length = (extraOps subs).length := by
  induction subs with
  | nil => rfl
  | cons c rest ih =>
    rcases c with ⟨_, _, _, _, _ | s, _ | d⟩ <;> simpa [extraOps, exact] using ih

/-- Differences that are words are exact. -/
theorem map_toInt_extraOps (comparable : ∀ c ∈ subs, c.Comparable) :
    (extraOps subs).map Int64.toInt = extraOps (subs.map exact) := by
  induction subs with
  | nil => rfl
  | cons c rest ih =>
    obtain ⟨first, others⟩ := List.forall_mem_cons.1 comparable
    have same := ih others
    rcases c with ⟨_, _, _, _, _ | s, _ | d⟩
    case some.some =>
      have bounds := first s rfl d rfl
      have difference : (s - d).toInt = s.toInt - d.toInt := by
        rw [Int64.toInt_sub]
        exact Int.bmod_eq_of_le (by omega) (by omega)
      simpa [extraOps, exact, difference] using same
    all_goals simpa [extraOps, exact] using same

/-- Whether there is a choice does not depend on the size of the counts. -/
theorem isSome_thresholdSat_words (k : Int) (subs : List (Cost Int64)) :
    (thresholdSat k subs).isSome = (thresholdSat k (subs.map exact)).isSome := by
  have base : (baseOps subs).isSome = (baseOps (subs.map exact)).isSome := by
    rw [← map_ofInt_baseOps, Option.isSome_map]
  simp only [thresholdSat, needOps, forcedSubs_exact, length_extraOps_exact]
  split
  · rfl
  · rw [OpCount.isSome_plus, OpCount.isSome_plus, base]

/-- With differences that are words, the count is the exact one up to wrapping around. -/
theorem thresholdSat_words (k : Int) (comparable : ∀ c ∈ subs, c.Comparable) :
    thresholdSat k subs = (thresholdSat k (subs.map exact)).map Int64.ofInt := by
  simp only [thresholdSat, needOps, forcedSubs_exact, length_extraOps_exact]
  split
  · rfl
  · rw [OpCount.plus_eq, OpCount.map_ofInt_and, map_ofInt_baseOps, ← map_toInt_extraOps comparable,
      ← map_toInt_sortDown, ← List.map_take, OpCount.plus, sum_words]
    rfl

end Words

/-! ### Costs that stand for others -/

/-- A cost in words that stands for an exact one: what is added up is the same up to wrapping around,
and the counts stand for the exact ones. -/
structure Stands (small : Prop) (c : Cost Int) (w : Cost Int64) : Prop where
  legacy : w.legacy = c.legacy
  size : w.size = Int64.ofInt c.size
  verifyForm : w.verifyForm = c.verifyForm
  static : w.staticOps = Int64.ofInt c.staticOps
  sat : c.satOps.Stands small w.satOps
  dissat : c.dissatOps.Stands small w.dissatOps

section Rules

variable {small : Prop} {c l r x y z : Cost Int} {c' l' r' x' y' z' : Cost Int64} {m n p : Int}

theorem stands_ofExact (small : Prop) (c : Cost Int) : c.Stands small (ofExact c) :=
  ⟨rfl, rfl, rfl, rfl, OpCount.stands_ofInt small _, OpCount.stands_ofInt small _⟩

theorem Stands.eq_ofExact (stands : c.Stands small c') (holds : small) : c' = ofExact c :=
  calc c' = ⟨c'.legacy, c'.size, c'.verifyForm, c'.staticOps, c'.satOps, c'.dissatOps⟩ := rfl
    _ = ofExact c := by
      rw [stands.legacy, stands.size, stands.verifyForm, stands.static, stands.sat.eq holds,
        stands.dissat.eq holds]
      rfl

theorem Stands.addOps (stands : c.Stands small c') (n : Int) :
    (c.addOps n).Stands small (c'.addOps n) where
  legacy := stands.legacy
  size := by
    rw [Cost.addOps, stands.size]
    exact (Int64.ofInt_add ..).symm
  verifyForm := rfl
  static := by
    rw [Cost.addOps, stands.static]
    exact (Int64.ofInt_add ..).symm
  sat := stands.sat.plus n
  dissat := stands.dissat.plus n

theorem Stands.withDissat (stands : c.Stands small c') :
    c.withDissat.Stands small c'.withDissat :=
  { stands with
    dissat := by
      rw [Cost.withDissat, Cost.withDissat, stands.static]
      exact OpCount.stands_ofInt small (some c.staticOps) }

theorem Stands.wrap (stands : c.Stands small c') (w : Wrapper) :
    (Cost.wrap w c).Stands small (Cost.wrap w c') := by
  have more := stands.addOps
  cases w with
  | alt => exact more 2
  | swap => exact { more 1 with verifyForm := stands.verifyForm }
  | check => exact { more 1 with verifyForm := rfl }
  | dupIf => exact { (more 3).withDissat with legacy := rfl }
  | verify =>
    rw [Cost.wrap, Cost.wrap, stands.verifyForm]
    exact { more _ with dissat := OpCount.stands_none }
  | nonZero => exact (more 4).withDissat
  | zeroNotEqual => exact more 1

theorem Stands.some_static (stands : c.Stands small c') :
    OpCount.Stands small (some c.staticOps) (some c'.staticOps) := by
  rw [stands.static]
  exact OpCount.stands_ofInt small (some c.staticOps)

theorem Stands.inRow (left : l.Stands small l') (right : r.Stands small r')
    {sat dissat : OpCount Int} {sat' dissat' : OpCount Int64} (hsat : sat.Stands small sat')
    (hdissat : dissat.Stands small dissat') :
    (inRow l r sat dissat).Stands small (inRow l' r' sat' dissat') where
  legacy := by rw [Cost.inRow, Cost.inRow, left.legacy, right.legacy]
  size := by
    rw [Cost.inRow, left.size, right.size]
    exact (Int64.ofInt_add ..).symm
  verifyForm := rfl
  static := by
    rw [Cost.inRow, left.static, right.static]
    exact (Int64.ofInt_add ..).symm
  sat := hsat
  dissat := hdissat

theorem Stands.pair (left : l.Stands small l') (right : r.Stands small r') (hl : l.Bounded m)
    (hr : r.Bounded n) (word : small → m + n < 0x8000000000000000) (op : Combinator) :
    (Cost.pair op l r).Stands small (Cost.pair op l' r') := by
  have low := Int.add_nonneg hl.nonneg hr.nonneg
  have both {a b : OpCount Int} (first : a.Between l.staticOps m)
      (second : b.Between r.staticOps n) : (OpCount.and a b).Between 0 (m + n) :=
    (first.and second).mono low (Int.le_refl _)
  have alone {a : OpCount Int} (first : a.Between l.staticOps m) :
      (a.plus r.staticOps).Between 0 (m + n) :=
    (first.plus _).mono low (Int.add_le_add_left hr.le m)
  have alone' {a : OpCount Int} (second : a.Between r.staticOps n) :
      (a.plus l.staticOps).Between 0 (m + n) := by
    have le := hl.le
    exact (second.plus _).mono (by omega) (by omega)
  have orElse : (elseOps l r).Stands small (elseOps l' r') :=
    (left.sat.and right.some_static).or (left.dissat.and right.sat) (alone hl.sat)
      (both hl.dissat hr.sat) word
  have none := @OpCount.stands_none small
  cases op with
  | andV =>
    exact { left.inRow right (left.sat.and right.sat) none with verifyForm := right.verifyForm }
  | andB =>
    exact (left.inRow right (left.sat.and right.sat) (left.dissat.and right.dissat)).addOps 1
  | orB =>
    have sat := (left.sat.and right.dissat).or (left.dissat.and right.sat)
      (both hl.sat hr.dissat) (both hl.dissat hr.sat) word
    exact (left.inRow right sat (left.dissat.and right.dissat)).addOps 1
  | orD => exact (left.inRow right orElse (left.dissat.and right.dissat)).addOps 3
  | orC => exact (left.inRow right orElse none).addOps 2
  | orI =>
    have sat := (left.sat.and right.some_static).or (right.sat.and left.some_static)
      (alone hl.sat) (alone' hr.sat) word
    have dissat := (left.dissat.and right.some_static).or (right.dissat.and left.some_static)
      (alone hl.dissat) (alone' hr.dissat) word
    exact { (left.inRow right sat dissat).addOps 3 with legacy := rfl }

theorem Stands.andor (condition : x.Stands small x') (met : y.Stands small y')
    (unmet : z.Stands small z') (hx : x.Bounded m) (hy : y.Bounded n) (hz : z.Bounded p)
    (word : small → m + n + p < 0x8000000000000000) :
    (Cost.andor x y z).Stands small (Cost.andor x' y' z') := by
  have low := hx.nonneg
  have low' := hy.nonneg
  have low'' := hz.nonneg
  have high := hy.le
  have high' := hz.le
  have first : ((OpCount.and x.satOps y.satOps).plus z.staticOps).Between 0 (m + n + p) :=
    ((hx.sat.and hy.sat).plus z.staticOps).mono (by omega) (by omega)
  have second : ((OpCount.and x.dissatOps z.satOps).plus y.staticOps).Between 0 (m + n + p) :=
    ((hx.dissat.and hz.sat).plus y.staticOps).mono (by omega) (by omega)
  have sat := ((condition.sat.and met.sat).and unmet.some_static).or
    ((condition.dissat.and unmet.sat).and met.some_static) first second word
  have dissat := (condition.dissat.and unmet.dissat).and met.some_static
  refine Stands.addOps ⟨?_, ?_, rfl, ?_, sat, dissat⟩ 3
  · rw [condition.legacy, met.legacy, unmet.legacy]
  · rw [condition.size, met.size, unmet.size, ← Int64.ofInt_add, ← Int64.ofInt_add]
  · rw [condition.static, met.static, unmet.static, ← Int64.ofInt_add, ← Int64.ofInt_add]

end Rules

/-! ### Thresholds -/

section Thresholds

variable {small : Prop} {cs : List (Cost Int)} {ws : List (Cost Int64)}
  (each : List.Forall₂ (Stands small) cs ws)
include each

theorem foldl_legacy_of_stands (start : Legacy) :
    ws.foldl (fun l c => l.both c.legacy) start = cs.foldl (fun l c => l.both c.legacy) start := by
  induction each generalizing start with
  | nil => rfl
  | cons head _ ih => rw [List.foldl_cons, List.foldl_cons, head.legacy, ih]

theorem sum_of_stands {count : Cost Int → Int} {count' : Cost Int64 → Int64}
    (same : ∀ c w, Stands small c w → count' w = Int64.ofInt (count c)) :
    Counting.sum (ws.map count') = Int64.ofInt (Counting.sum (cs.map count)) := by
  induction each with
  | nil => rfl
  | cons head _ ih =>
    simp only [Counting.sum, List.map_cons, List.foldr_cons, Int64.ofInt_add] at ih ⊢
    rw [ih, same _ _ head]

theorem foldl_dissat_of_stands {start : OpCount Int} {start' : OpCount Int64}
    (first : start.Stands small start') :
    OpCount.Stands small (cs.foldl (fun n c => OpCount.and n c.dissatOps) start)
      (ws.foldl (fun n c => OpCount.and n c.dissatOps) start') := by
  induction each generalizing start start' with
  | nil => exact first
  | cons head _ ih => exact ih (first.and head.dissat)

theorem isSome_mostOps_of_stands (k : Int) :
    (mostOps k (ws.map exact)).isSome = (mostOps k cs).isSome := by
  induction each generalizing k with
  | nil => rfl
  | @cons c w _ _ head _ ih =>
    have sat : w.exact.satOps.isSome = c.satOps.isSome :=
      Option.isSome_map.trans head.sat.isSome_eq
    have dissat : w.exact.dissatOps.isSome = c.dissatOps.isSome :=
      Option.isSome_map.trans head.dissat.isSome_eq
    simp only [List.map_cons, mostOps, OpCount.isSome_or, OpCount.isSome_and, ih, sat, dissat]

end Thresholds

section Small

variable {c : Cost Int} {m : Int}

/-- A count that is a word is found again exactly. -/
theorem map_toInt_map_ofInt {a : OpCount Int} {hi : Int} (bounds : a.Between 0 hi)
    (word : hi < 0x8000000000000000) : (a.map Int64.ofInt).map Int64.toInt = a := by
  cases a with
  | none => rfl
  | some n =>
    have low := bounds n rfl
    rw [Option.map_some, Option.map_some, Int64.toInt_ofInt_of_le (by omega) (by omega)]

theorem Bounded.exact_sat (bounded : c.Bounded m) (word : m < 0x8000000000000000) :
    (ofExact c : Cost Int64).exact.satOps = c.satOps :=
  map_toInt_map_ofInt (bounded.sat.mono bounded.nonneg (Int.le_refl m)) word

theorem Bounded.exact_dissat (bounded : c.Bounded m) (word : m < 0x8000000000000000) :
    (ofExact c : Cost Int64).exact.dissatOps = c.dissatOps :=
  map_toInt_map_ofInt (bounded.dissat.mono bounded.nonneg (Int.le_refl m)) word

theorem Bounded.comparable (bounded : c.Bounded m) (word : m < 0x8000000000000000) :
    (ofExact c : Cost Int64).Comparable := by
  have nonneg {a : OpCount Int} (between : a.Between c.staticOps m) :
      ∀ n ∈ a.map Int64.ofInt, 0 ≤ n.toInt := by
    intro n member
    obtain ⟨i, inside, rfl⟩ := Option.map_eq_some_iff.1 member
    have bounds := between i inside
    have low := bounded.nonneg
    rw [Int64.toInt_ofInt_of_le (by omega) (by omega)]
    omega
  exact comparable_of_nonneg (nonneg bounded.sat) (nonneg bounded.dissat)

/-- The most operations depend on the counts alone. -/
theorem mostOps_map_exact {cs : List (Cost Int)}
    (small : ∀ c ∈ cs, ∃ m, c.Bounded m ∧ m < 0x8000000000000000) (k : Int) :
    mostOps k ((cs.map (ofExact : Cost Int → Cost Int64)).map exact) = mostOps k cs := by
  induction cs generalizing k with
  | nil => rfl
  | cons c rest ih =>
    obtain ⟨m, bounded, word⟩ := small c List.mem_cons_self
    have tail := ih fun d member => small d (List.mem_cons_of_mem _ member)
    rw [List.map_cons, List.map_cons, mostOps, mostOps, tail, tail, bounded.exact_sat word,
      bounded.exact_dissat word]

end Small

theorem stands_thresholdSat {small : Prop} {cs : List (Cost Int)} {ws : List (Cost Int64)}
    (each : List.Forall₂ (Stands small) cs ws)
    (word : small → ∀ c ∈ cs, ∃ m, c.Bounded m ∧ m < 0x8000000000000000) (k : Int) :
    OpCount.Stands small (thresholdSat k cs) (thresholdSat k ws) where
  isSome_eq := by
    rw [isSome_thresholdSat_words, thresholdSat_eq_mostOps, thresholdSat_eq_mostOps,
      isSome_mostOps_of_stands each]
  eq holds := by
    have same : ws = cs.map ofExact := by
      have all := each.imp fun c w stands => (stands.eq_ofExact holds).symm
      rw [← List.forall₂_map_left_iff, List.forall₂_eq_eq_eq] at all
      exact all.symm
    subst same
    have comparable : ∀ w ∈ cs.map (ofExact : Cost Int → Cost Int64), w.Comparable := by
      intro w member
      obtain ⟨c, inside, rfl⟩ := List.mem_map.1 member
      obtain ⟨m, bounded, small⟩ := word holds c inside
      exact bounded.comparable small
    rw [thresholdSat_words k comparable, thresholdSat_eq_mostOps, thresholdSat_eq_mostOps,
      mostOps_map_exact (word holds)]

theorem stands_threshold {small : Prop} {cs : List (Cost Int)} {ws : List (Cost Int64)}
    (each : List.Forall₂ (Stands small) cs ws)
    (word : small → ∀ c ∈ cs, ∃ m, c.Bounded m ∧ m < 0x8000000000000000) (k n : Int) :
    (threshold k n cs).Stands small (threshold k (Int64.ofInt n) ws) where
  legacy := foldl_legacy_of_stands each _
  size := by
    have sizes := sum_of_stands each fun _ _ stands => stands.size
    simp only [threshold, Counting.ofInt, sizes, Int64.ofInt_add]
  verifyForm := rfl
  static := by
    have ops := sum_of_stands each fun _ _ stands => stands.static
    simp only [threshold, ops, Int64.ofInt_add]
  sat := (stands_thresholdSat each word k).plus n
  dissat := (foldl_dissat_of_stands each (OpCount.stands_ofInt small (some 0))).plus n

end Cost

/-! ## Fragments in words -/

/-- The operations of a wrapper. A VERIFY may be taken in and is none then. -/
def Wrapper.ops : Wrapper → Nat
  | .alt => 2
  | .swap => 1
  | .check => 1
  | .dupIf => 3
  | .verify => 1
  | .nonZero => 4
  | .zeroNotEqual => 1

/-- The operations of a combination. -/
def Combinator.ops : Combinator → Nat
  | .andV => 0
  | .andB => 1
  | .orB => 1
  | .orD => 3
  | .orC => 2
  | .orI => 3

namespace Fragment

theorem allOps_nonneg (f : Fragment) : 0 ≤ f.allOps :=
  Int.le_trans f.bounded_cost.nonneg f.bounded_cost.le

theorem allOps_multi (k : Int) (keys : List Key) :
    (leaf (.multi k keys)).allOps = keys.length + 1 := by
  rw [allOps, cost, Cost.ofExact_int, leaves]
  simp only [Cost.ofLeaf, Cost.multi, Course.multiKeys, Leaf.multiKeys, List.foldr_cons,
    List.foldr_nil]
  omega

theorem allOps_wrap (w : Wrapper) (x : Fragment) :
    x.allOps ≤ (wrap w x).allOps ∧ (wrap w x).allOps ≤ x.allOps + w.ops := by
  rw [allOps, allOps, cost, leaves]
  cases w <;>
    simp only [Cost.wrap, Cost.addOps, Cost.withDissat, Counting.ofInt_int, Wrapper.ops] <;>
    grind

theorem allOps_pair (op : Combinator) (x y : Fragment) :
    (pair op x y).allOps = x.allOps + y.allOps + op.ops := by
  rw [allOps, allOps, allOps, cost, leaves, Course.multiKeys_append]
  cases op <;>
    simp only [Cost.pair, Cost.inRow, Cost.addOps, Counting.ofInt_int, Combinator.ops] <;>
    omega

theorem allOps_andor (x y z : Fragment) :
    (andor x y z).allOps = x.allOps + y.allOps + z.allOps + 3 := by
  rw [allOps, allOps, allOps, allOps, cost, leaves, Course.multiKeys_append, Course.multiKeys_append]
  simp only [Cost.andor, Cost.addOps, Counting.ofInt_int]
  omega

/-- The operations of several fragments. -/
def opsOf : List Fragment → Int
  | [] => 0
  | x :: rest => x.allOps + opsOf rest

theorem opsOf_append (before after : List Fragment) :
    opsOf (before ++ after) = opsOf before + opsOf after := by
  induction before with
  | nil => simp [opsOf]
  | cons x rest ih =>
    rw [List.cons_append, opsOf, opsOf, ih]
    omega

theorem opsOf_nonneg (subs : List Fragment) : 0 ≤ opsOf subs := by
  induction subs with
  | nil => exact Int.le_refl 0
  | cons x rest ih => exact Int.add_nonneg x.allOps_nonneg ih

/-- A threshold has an operation for each of its parts. -/
theorem allOps_thresh (k : Int) (subs : List Fragment) :
    (thresh k subs).allOps = opsOf subs + subs.length := by
  have parts : opsOf subs =
      Counting.sum ((costs Int subs).map Cost.staticOps) + Course.multiKeys (leavesOf subs) := by
    induction subs with
    | nil => rfl
    | cons x rest ih =>
      simp only [opsOf, List.map_cons, costs, leavesOf, Counting.sum_int, List.foldr_cons,
        Course.multiKeys_append, allOps] at ih ⊢
      omega
  simp only [parts, allOps, cost, leaves, Cost.threshold, Counting.ofInt_int]
  omega

theorem allOps_le_opsOf {subs : List Fragment} {x : Fragment} (member : x ∈ subs) :
    x.allOps ≤ opsOf subs := by
  obtain ⟨before, after, rfl⟩ := List.append_of_mem member
  have others := opsOf_nonneg before
  have others' := opsOf_nonneg after
  rw [opsOf_append, opsOf]
  omega

/-- No part has more operations than the whole. -/
theorem allOps_le_of_child {f x : Fragment} (child : x ∈ f.children) : x.allOps ≤ f.allOps := by
  cases f with
  | leaf l => cases child
  | wrap w y =>
    obtain rfl := List.mem_singleton.1 child
    exact (allOps_wrap w x).1
  | pair op y z =>
    have sum := allOps_pair op y z
    have left := y.allOps_nonneg
    have right := z.allOps_nonneg
    rcases mem_children_pair.1 child with rfl | rfl <;> omega
  | andor y z t =>
    have sum := allOps_andor y z t
    have first := y.allOps_nonneg
    have second := z.allOps_nonneg
    have third := t.allOps_nonneg
    rcases mem_children_andor.1 child with rfl | rfl | rfl <;> omega
  | thresh k subs =>
    have part : x.allOps ≤ opsOf subs := allOps_le_opsOf child
    rw [allOps_thresh]
    omega

/-- All operations and all keys of CHECKMULTISIGs together are a word. -/
def Fits (f : Fragment) : Prop := f.allOps < 0x8000000000000000

instance (f : Fragment) : Decidable f.Fits := inferInstanceAs (Decidable (_ < _))

theorem Fits.part {f x : Fragment} (fits : f.Fits) (child : x ∈ f.children) : x.Fits :=
  Int.lt_of_le_of_lt (allOps_le_of_child child) fits

/-- The cost in words stands for the exact one, and is the exact one if the operations are a word. -/
theorem stands_cost {small : Prop} (f : Fragment) (fits : small → f.Fits) :
    (f.cost Int).Stands small (f.cost Int64) := by
  induction f with
  | leaf l =>
    rw [cost, cost, Cost.ofExact_int]
    exact Cost.stands_ofExact small _
  | wrap w x ih => exact (ih fun holds => (fits holds).part List.mem_cons_self).wrap w
  | pair op x y ihx ihy =>
    have part {z : Fragment} (child : z ∈ (pair op x y).children) (holds : small) : z.Fits :=
      (fits holds).part child
    have word (holds : small) : x.allOps + y.allOps < 0x8000000000000000 := by
      have whole := fits holds
      rw [Fits, allOps_pair] at whole
      omega
    exact (ihx (part (mem_children_pair.2 (.inl rfl)))).pair
      (ihy (part (mem_children_pair.2 (.inr rfl)))) x.bounded_cost y.bounded_cost word op
  | andor x y z ihx ihy ihz =>
    have part {t : Fragment} (child : t ∈ (andor x y z).children) (holds : small) : t.Fits :=
      (fits holds).part child
    have word (holds : small) : x.allOps + y.allOps + z.allOps < 0x8000000000000000 := by
      have whole := fits holds
      rw [Fits, allOps_andor] at whole
      omega
    exact (ihx (part (mem_children_andor.2 (.inl rfl)))).andor
      (ihy (part (mem_children_andor.2 (.inr (.inl rfl)))))
      (ihz (part (mem_children_andor.2 (.inr (.inr rfl))))) x.bounded_cost y.bounded_cost
      z.bounded_cost word
  | thresh k subs ih =>
    have part {x : Fragment} (member : x ∈ subs) (holds : small) : x.Fits :=
      (fits holds).part (f := thresh k subs) member
    have each : List.Forall₂ (Cost.Stands small) (costs Int subs) (costs Int64 subs) := by
      rw [costs_eq_map, costs_eq_map, List.forall₂_map_left_iff, List.forall₂_map_right_iff,
        List.forall₂_same]
      exact fun x member => ih x member (part member)
    refine Cost.stands_threshold each (fun holds c member => ?_) k subs.length
    rw [costs_eq_map] at member
    obtain ⟨x, inside, rfl⟩ := List.mem_map.1 member
    exact ⟨x.allOps, x.bounded_cost, part inside holds⟩

/-- Whatever is added up is the same up to wrapping around. -/
theorem wraps_cost (f : Fragment) : (f.cost Int).Stands False (f.cost Int64) :=
  f.stands_cost False.elim

theorem cost_eq_ofExact {f : Fragment} (fits : f.Fits) : f.cost Int64 = .ofExact (f.cost Int) :=
  (f.stands_cost fun _ : True => fits).eq_ofExact trivial

section Fits

variable {f : Fragment} (fits : f.Fits)
include fits

theorem Fits.staticOps : (f.cost Int64).staticOps.toInt = (f.cost Int).staticOps := by
  have low := f.bounded_cost.nonneg
  have high := f.bounded_cost.le
  have word : f.allOps < 0x8000000000000000 := fits
  rw [f.wraps_cost.static]
  exact Int64.toInt_ofInt_of_le (by omega) (by omega)

theorem Fits.satOps : (f.cost Int64).satOps.map Int64.toInt = (f.cost Int).satOps := by
  rw [cost_eq_ofExact fits]
  exact f.bounded_cost.exact_sat fits

theorem Fits.dissatOps : (f.cost Int64).dissatOps.map Int64.toInt = (f.cost Int).dissatOps := by
  rw [cost_eq_ofExact fits]
  exact f.bounded_cost.exact_dissat fits

/-- Where the operations are a word, the cost in words keeps the invariant of costs. -/
theorem Fits.covered : (f.cost Int64).Covered := by
  constructor
  · intro n member
    have inside : n.toInt ∈ (f.cost Int).satOps := by
      rw [← fits.satOps]
      exact Option.mem_map_of_mem Int64.toInt member
    exact Int.le_trans (Int.le_of_eq fits.staticOps) (f.bounded_cost.sat _ inside).1
  · intro n member
    have inside : n.toInt ∈ (f.cost Int).dissatOps := by
      rw [← fits.dissatOps]
      exact Option.mem_map_of_mem Int64.toInt member
    exact Int.le_trans (Int.le_of_eq fits.staticOps) (f.bounded_cost.dissat _ inside).1

end Fits

/-! ### Facts counted otherwise -/

section Recounted

variable {ν μ : Type} [Add ν] [Sub ν] [Counting ν] [Add μ] [Sub μ] [Counting μ]

variable (μ) in
theorem exists_recounted {subs : List Fragment} {fs : List (Facts ν)}
    (each : List.Forall₂ (fun x fx => x.facts? = .ok fx) subs fs)
    (parts : ∀ x ∈ subs, ∀ fx : Facts ν, x.facts? = .ok fx →
      x.facts? = .ok (⟨fx.type, x.cost μ⟩ : Facts μ)) :
    ∃ gs : List (Facts μ), List.Forall₂ (fun x gx => x.facts? = .ok gx) subs gs ∧
      gs.map Facts.type = fs.map Facts.type := by
  induction each with
  | nil => exact ⟨[], .nil, rfl⟩
  | @cons x fx _ _ head _ ih =>
    obtain ⟨gs, others, same⟩ := ih fun y member => parts y (List.mem_cons_of_mem _ member)
    exact ⟨_ :: gs, .cons (parts x List.mem_cons_self fx head) others, congrArg (fx.type :: ·) same⟩

/-- A fragment with facts has them in other numbers too, with the same type, if the costs of all its
parts keep the invariant in those numbers. -/
theorem facts?_recounted {P : Fragment → Prop} (parts : ∀ f, P f → ∀ x ∈ f.children, P x)
    (covered : ∀ f, P f → (f.cost μ).Covered) {f : Fragment} {facts : Facts ν}
    (typed : f.facts? = .ok facts) (holds : P f) :
    f.facts? = .ok (⟨facts.type, f.cost μ⟩ : Facts μ) := by
  induction f generalizing facts with
  | leaf l =>
    obtain ⟨checked, rfl, -⟩ := facts?_leaf_iff.1 typed
    exact facts?_leaf_of_covered checked (covered _ holds)
  | wrap w x ih =>
    obtain ⟨fx, c, hx, accepted, rfl, -⟩ := facts?_wrap_iff.1 typed
    have hx' := ih hx (parts _ holds x List.mem_cons_self)
    exact facts?_wrap_of_covered hx' accepted (covered _ holds)
  | pair op x y ihx ihy =>
    obtain ⟨fx, fy, c, hx, hy, accepted, rfl, -⟩ := facts?_pair_iff.1 typed
    have hx' := ihx hx (parts _ holds x (mem_children_pair.2 (.inl rfl)))
    have hy' := ihy hy (parts _ holds y (mem_children_pair.2 (.inr rfl)))
    exact facts?_pair_of_covered hx' hy' accepted (covered _ holds)
  | andor x y z ihx ihy ihz =>
    obtain ⟨fx, fy, fz, c, hx, hy, hz, accepted, rfl, -⟩ := facts?_andor_iff.1 typed
    have hx' := ihx hx (parts _ holds x (mem_children_andor.2 (.inl rfl)))
    have hy' := ihy hy (parts _ holds y (mem_children_andor.2 (.inr (.inl rfl))))
    have hz' := ihz hz (parts _ holds z (mem_children_andor.2 (.inr (.inr rfl))))
    exact facts?_andor_of_covered hx' hy' hz' accepted (covered _ holds)
  | thresh k subs ih =>
    obtain ⟨fs, each, checked, accepted, rfl, -⟩ := facts?_thresh_iff.1 typed
    obtain ⟨gs, each', same⟩ := exists_recounted μ each fun x member fx hx =>
      ih x member hx (parts _ holds x member)
    have corr : gs.map (fun x => x.type.corr) = fs.map fun x => x.type.corr := by
      simpa [Function.comp_def] using congrArg (List.map ScriptType.corr) same
    have mall : gs.map (fun x => x.type.mall) = fs.map fun x => x.type.mall := by
      simpa [Function.comp_def] using congrArg (List.map ScriptType.mall) same
    have length : gs.length = fs.length := by simpa using congrArg List.length same
    have typed' := facts?_thresh_of_covered each' (length ▸ checked) (corr ▸ accepted)
      (covered _ holds)
    rw [corr, mall, length, map_cost_of_facts? each'] at typed'
    rw [cost, each.length_eq]
    exact typed'

end Recounted

variable {f : Fragment}

/-- What has facts in words has facts that are exact, of the same type. -/
theorem exact_of_facts? {facts : Facts Int64} (typed : f.facts? = .ok facts) :
    f.facts? = .ok (⟨facts.type, f.cost Int⟩ : Facts Int) :=
  facts?_recounted (P := fun _ => True) (fun _ _ _ _ => trivial) (fun g _ => g.covered_cost) typed
    trivial

/-- What has exact facts has facts in words, of the same type, if the operations are a word. -/
theorem facts?_of_exact {facts : Facts Int} (typed : f.facts? = .ok facts) (fits : f.Fits) :
    f.facts? = .ok (⟨facts.type, f.cost Int64⟩ : Facts Int64) :=
  facts?_recounted (fun _ fits _ child => fits.part child) (fun _ fits => fits.covered) typed fits

/-- The rules give the fragment the type, whatever its costs are in words. -/
def HasType (f : Fragment) (t : ScriptType) : Prop := f.facts? = .ok (⟨t, f.cost Int⟩ : Facts Int)

theorem hasType_iff {t : ScriptType} :
    f.HasType t ↔ ∃ facts : Facts Int, f.facts? = .ok facts ∧ facts.type = t := by
  constructor
  · intro typed
    exact ⟨_, typed, rfl⟩
  · rintro ⟨facts, typed, rfl⟩
    rw [HasType, typed, ← cost_of_facts? typed]

theorem HasType.eq {s t : ScriptType} (first : f.HasType s) (second : f.HasType t) : s = t :=
  congrArg Facts.type (Except.ok.inj (first.symm.trans second))

/-! ### Fragments put together with themselves -/

/-- `and_v` of a fragment with itself, over and over. -/
def doubled (x : Fragment) : Nat → Fragment
  | 0 => x
  | n + 1 => .pair .andV (x.doubled n) (x.doubled n)

theorem depth_doubled (x : Fragment) (n : Nat) : (x.doubled n).depth = x.depth + n := by
  induction n with
  | zero => rfl
  | succ n ih =>
    rw [doubled, depth, ih, Nat.max_self]
    omega

/-- Every count of a doubled fragment is doubled each time. -/
theorem counts_doubled (x : Fragment) (n : Nat) :
    ((x.doubled n).cost Int).size = Nat.repeat (2 * ·) n (x.cost Int).size ∧
      ((x.doubled n).cost Int).staticOps = Nat.repeat (2 * ·) n (x.cost Int).staticOps ∧
      ((x.doubled n).cost Int).satOps = (x.cost Int).satOps.map (Nat.repeat (2 * ·) n) ∧
      (x.doubled n).allOps = Nat.repeat (2 * ·) n x.allOps := by
  induction n with
  | zero => exact ⟨rfl, rfl, Option.map_id_apply.symm, rfl⟩
  | succ n ih =>
    obtain ⟨size, static, sat, all⟩ := ih
    refine ⟨?_, ?_, ?_, ?_⟩
    · simp only [doubled, cost, Cost.pair, Cost.inRow, size, Nat.repeat]
      omega
    · simp only [doubled, cost, Cost.pair, Cost.inRow, static, Nat.repeat]
      omega
    · simp only [doubled, cost, Cost.pair, Cost.inRow, sat]
      cases (x.cost Int).satOps with
      | none => rfl
      | some m =>
        simp only [Option.map_some, OpCount.some_and_some, Option.some.injEq, Nat.repeat]
        omega
    · simp only [doubled, allOps_pair, all, Combinator.ops, Nat.repeat]
      omega

/-- A type that a fragment keeps when it is put together with itself. -/
structure Repeats (t : ScriptType) : Prop where
  corr : Correctness.pair .andV t.corr t.corr = .ok t.corr
  mall : Malleability.pair .andV t.mall t.mall = t.mall

theorem hasType_doubled {x : Fragment} {t : ScriptType} (repeats : Repeats t)
    (typed : x.HasType t) (n : Nat) : (x.doubled n).HasType t := by
  induction n with
  | zero => exact typed
  | succ n ih =>
    have made := facts?_pair_of_covered ih ih repeats.corr (covered_cost _)
    rw [repeats.mall] at made
    exact made

end Fragment

/-- A checked fragment has the type that was found in words. -/
theorem Checked.hasType (m : Checked) : m.fragment.HasType m.type :=
  Fragment.exact_of_facts? m.typed

/-- What has a type and whose operations are a word is checked. -/
theorem Fragment.HasType.exists_checked {f : Fragment} {t : ScriptType} (typed : f.HasType t)
    (fits : f.Fits) : ∃ m : Checked, m.fragment = f ∧ m.type = t :=
  ⟨⟨f, _, facts?_of_exact typed fits⟩, rfl, rfl⟩

/-- The fragment put together with itself, checked as long as its operations are a word. -/
def Checked.doubled {x : Fragment} {t : ScriptType} (repeats : Fragment.Repeats t)
    (typed : x.HasType t) {n : Nat} (fits : (x.doubled n).Fits) : Checked where
  fragment := x.doubled n
  facts := ⟨t, (x.doubled n).cost Int64⟩
  typed := Fragment.facts?_of_exact (Fragment.hasType_doubled repeats typed n) fits

/-- `v:1`, of one operation. -/
def Fragment.verifiedOne : Fragment := .wrap .verify (.leaf .one)

theorem Fragment.repeats_verifiedOne :
    Repeats ⟨⟨.V, .zero, false, false⟩, ⟨.none, false, true⟩⟩ :=
  ⟨rfl, rfl⟩

theorem Fragment.hasType_verifiedOne :
    verifiedOne.HasType ⟨⟨.V, .zero, false, false⟩, ⟨.none, false, true⟩⟩ := by
  rfl

theorem Fragment.fits_ones : (verifiedOne.doubled 62).Fits := by
  rw [Fits, (verifiedOne.counts_doubled 62).2.2.2]
  decide

/-- So many of them that the operations are just a word. -/
def Checked.ones : Checked :=
  .doubled Fragment.repeats_verifiedOne Fragment.hasType_verifiedOne Fragment.fits_ones

end LockScript
