import LockScript.Fragment.Terminal
import LockScript.Proofs.Key.Reading
import LockScript.Proofs.Typing.Wrapping

/-!
Checking one step.

Checking a composition has four outcomes: it is nested too deeply, its parts do not fit together,
its cost breaks an invariant, or there is a checked fragment whose facts keep the invariants of the
types. The third never happens as long as the operations are a word. But they need not be: parts may
be used any number of times, and a fragment that is put together with itself again and again has
twice the operations each time (`Fragment.doubled`).

Apart from compositions, what the check is handed may be none of the forms of fragments, or have keys
without a text. `Terminal.Outcome` tells all the cases apart.
-/

namespace LockScript

namespace Composition

/-- The correctness type, or why the numbers and the parts do not fit together. -/
def corr? : Composition → Except Mistype Correctness
  | .leaf l => (Facts.checkLeaf l).map fun _ => .ofLeaf l
  | .wrap w x => Correctness.wrap w x.type.corr
  | .pair op x y => Correctness.pair op x.type.corr y.type.corr
  | .andor x y z => Correctness.andor x.type.corr y.type.corr z.type.corr
  | .thresh k subs => do
    Facts.checkThreshold k subs.length
    Correctness.threshold (subs.map fun x => x.type.corr)

/-- The facts as they are computed from those of the parts. -/
def facts? : Composition → Except Refusal (Facts Int64)
  | .leaf l => Facts.leaf l
  | .wrap w x => Facts.wrap w x.facts
  | .pair op x y => Facts.pair op x.facts y.facts
  | .andor x y z => Facts.andor x.facts y.facts z.facts
  | .thresh k subs => Facts.threshold k (subs.map Checked.facts)

/-! ## Why a composition is refused -/

/-- Either there is no correctness type and that is why there are no facts, or the cost breaks its
invariant, or there are sound facts with the correctness type that was found. -/
inductive Decided (corr : Except Mistype Correctness) (cost : Cost Int64) :
    Except Refusal (Facts Int64) → Prop
  | refused {m : Mistype} (unfit : corr = .error m) : Decided corr cost (.error (.mistyped m))
  | broken {c : Correctness} {v : Violation} (fit : corr = .ok c) (below : cost.violation? = some v) :
      Decided corr cost (.error (.broken v))
  | found {facts : Facts Int64} (fit : corr = .ok facts.type.corr) (sound : facts.Sound) :
      Decided corr cost (.ok facts)

theorem decided_ofParts {corr : Except Mistype Correctness} {c : Correctness} {mall : Malleability}
    {cost : Cost Int64} (fit : corr = .ok c) (coherent : ScriptType.Coherent ⟨c, mall⟩) :
    Decided corr cost (Facts.ofParts c mall cost) := by
  obtain ⟨corrKept, typeKept⟩ := ScriptType.coherent_iff.1 coherent
  cases kept : cost.violation? with
  | some v =>
    simp only [Facts.ofParts, corrKept, kept]
    exact .broken fit kept
  | none =>
    rw [Facts.ofParts_eq_ok_iff.2 ⟨rfl, corrKept, kept, typeKept⟩]
    exact .found fit ⟨corrKept, kept, typeKept⟩

theorem decided_ofChecked {corr : Except Mistype Correctness} {mall : Malleability}
    {cost : Cost Int64} (coherent : ∀ c, corr = .ok c → ScriptType.Coherent ⟨c, mall⟩) :
    Decided corr cost (Facts.ofChecked corr mall cost) := by
  cases corr with
  | error m => exact .refused rfl
  | ok c => exact decided_ofParts rfl (coherent c rfl)

theorem decided_threshold (k : Int) (subs : List Checked) :
    Decided (corr? (.thresh k subs))
      (.threshold k (Counting.ofInt subs.length) (subs.map Checked.cost))
      (Facts.threshold k (subs.map Checked.facts)) := by
  have types : (subs.map Checked.facts).map (fun x => x.type.corr)
      = subs.map fun x => x.type.corr := by
    rw [List.map_map]
    rfl
  have costs : (subs.map Checked.facts).map Facts.cost = subs.map Checked.cost := by
    rw [List.map_map]
    rfl
  rw [Facts.threshold, corr?, List.length_map, types]
  cases Facts.checkThreshold k subs.length with
  | error m => exact .refused rfl
  | ok u =>
    dsimp only
    unfold Correctness.threshold
    cases Correctness.checkSubs 0 (subs.map fun x => x.type.corr) with
    | error m => exact .refused rfl
    | ok u =>
      simp only [Facts.ofSubs, costs, List.length_map]
      refine decided_ofParts ?_ (Facts.coherent_threshold k subs.length _)
      rw [types]
      rfl

/-- The facts of a composition are refused only because of its correctness type or its cost. -/
theorem decided_facts? (t : Composition) :
    Decided t.corr? (t.fragment.cost Int64) t.facts? := by
  have coherent (x : Checked) := Fragment.coherent_of_facts? x.typed
  have cost (x : Checked) : x.fragment.cost Int64 = x.cost :=
    (Fragment.cost_of_facts? x.typed).symm
  cases t with
  | leaf l =>
    rw [fragment, Fragment.cost]
    apply decided_ofChecked
    intro c accepted
    rcases map_eq_ok_iff.1 accepted with ⟨-, -, rfl⟩
    exact .leaf l
  | wrap w x =>
    rw [fragment, Fragment.cost, cost]
    exact decided_ofChecked fun c accepted => (coherent x).wrap accepted
  | pair op x y =>
    rw [fragment, Fragment.cost, cost, cost]
    exact decided_ofChecked fun c accepted => (coherent x).pair (coherent y) accepted
  | andor x y z =>
    rw [fragment, Fragment.cost, cost, cost, cost]
    exact decided_ofChecked fun c accepted => (coherent y).andor (coherent z) accepted
  | thresh k subs =>
    have costs : (subs.map Checked.fragment).map (Fragment.cost Int64) = subs.map Checked.cost := by
      rw [List.map_map]
      exact List.map_congr_left fun x _ => cost x
    rw [fragment, Fragment.cost, Fragment.costs_eq_map, costs, List.length_map]
    exact decided_threshold k subs

/-! ## The outcomes of a check -/

theorem fragment_facts? (t : Composition) : t.fragment.facts? = t.fragment.blame t.facts? := by
  cases t with
  | leaf l => rfl
  | wrap w x => simp [fragment, facts?, Fragment.facts?, x.typed]
  | pair op x y => simp [fragment, facts?, Fragment.facts?, x.typed, y.typed]
  | andor x y z => simp [fragment, facts?, Fragment.facts?, x.typed, y.typed, z.typed]
  | thresh k subs => simp [fragment, facts?, Fragment.facts?, Checked.factsOf?_map]

theorem check_eq_accept (limit : Int) (t : Composition) :
    t.check limit = Checked.accept limit t.fragment t.facts? t.fragment_facts? := by
  cases t <;> rfl

theorem check_of_deep {limit : Int} {t : Composition} (deep : limit < t.fragment.depth) :
    t.check limit = .error ⟨.tooDeep t.fragment.depth limit, none⟩ := by
  rw [check_eq_accept]
  exact if_pos deep

/-- What becomes of a fragment that is not nested too deeply. -/
inductive Result (corr : Except Mistype Correctness) (f : Fragment) : Except Error Checked → Prop
  | mistyped {m : Mistype} (unfit : corr = .error m) : Result corr f (.error ⟨.mistyped f m, none⟩)
  | broken {c : Correctness} {v : Violation} (fit : corr = .ok c)
      (below : (f.cost Int64).violation? = some v) : Result corr f (.error ⟨.broken v, none⟩)
  | made {m : Checked} (fit : corr = .ok m.type.corr) (same : m.fragment = f) :
      Result corr f (.ok m)

theorem result_accept {limit : Int} {f : Fragment} (shallow : f.depth ≤ limit)
    {corr : Except Mistype Correctness} {found : Except Refusal (Facts Int64)}
    (decided : Decided corr (f.cost Int64) found) (agrees : f.facts? = f.blame found) :
    Result corr f (Checked.accept limit f found agrees) := by
  unfold Checked.accept
  rw [if_neg (Int.not_lt.2 shallow)]
  cases decided with
  | refused unfit => exact .mistyped unfit
  | broken fit below => exact .broken fit below
  | found fit sound => exact .made fit rfl

theorem check_of_shallow {limit : Int} {t : Composition} (shallow : t.fragment.depth ≤ limit) :
    Result t.corr? t.fragment (t.check limit) := by
  rw [check_eq_accept]
  exact result_accept shallow t.decided_facts? t.fragment_facts?

theorem check_eq_ok {limit : Int} {t : Composition} {m : Checked}
    (checked : t.check limit = .ok m) : t.fragment.depth ≤ limit ∧ m.fragment = t.fragment := by
  rcases Int.lt_or_le limit t.fragment.depth with deep | shallow
  · rw [check_of_deep deep] at checked
    cases checked
  · have result := check_of_shallow shallow
    rw [checked] at result
    cases result with
    | made fit same => exact ⟨shallow, same⟩

end Composition

/-- An invariant of costs is broken only where the operations are no word. -/
theorem Fragment.not_fits_of_violation {f : Fragment} {v : Violation}
    (below : (f.cost Int64).violation? = some v) : ¬ f.Fits := by
  intro fits
  rw [Cost.covered_iff.2 fits.covered] at below
  cases below

/-! ## All that can be handed to the check -/

namespace Terminal

/-- The outcomes of a check. It breaks off where the value is none of the forms, where an error would
have to name a key that has no text, and where a count of operations has wrapped around and is below
that of the script. -/
inductive Outcome (hasText : Key → Bool) (limit : Int) :
    Terminal → Except Breakdown (Except Error Checked) → Prop
  | tooDeep {t : Terminal} (deep : limit < t.depth) :
      Outcome hasText limit t (.ok (.error ⟨.tooDeep t.depth limit, none⟩))
  | unknownForm {parts : List Checked} (shallow : (foreign parts).depth ≤ limit) :
      Outcome hasText limit (.foreign parts) (.error .unknownForm)
  | mistyped {c : Composition} {m : Mistype} (shallow : c.fragment.depth ≤ limit)
      (unfit : c.corr? = .error m) (named : ∀ key ∈ c.fragment.keys, hasText key = true) :
      Outcome hasText limit (.composed c) (.ok (.error ⟨.mistyped c.fragment m, none⟩))
  | keyWithoutText {c : Composition} {m : Mistype} {key : Key}
      (shallow : c.fragment.depth ≤ limit) (unfit : c.corr? = .error m)
      (member : key ∈ c.fragment.keys) (unnamed : hasText key = false) :
      Outcome hasText limit (.composed c) (.error .keyWithoutText)
  | wrapped {c : Composition} {corr : Correctness} {v : Violation}
      (shallow : c.fragment.depth ≤ limit) (fit : c.corr? = .ok corr)
      (below : v = .satBelowStatic ∨ v = .dissatBelowStatic) (large : ¬ c.fragment.Fits) :
      Outcome hasText limit (.composed c) (.error (.broken v))
  | made {c : Composition} {m : Checked} (shallow : c.fragment.depth ≤ limit)
      (fit : c.corr? = .ok m.type.corr) (same : m.fragment = c.fragment)
      (coherent : m.type.Coherent) (covered : m.cost.Covered) :
      Outcome hasText limit (.composed c) (.ok (.ok m))

theorem outcome_composed (hasText : Key → Bool) (limit : Int) (c : Composition) :
    Outcome hasText limit (.composed c) ((composed c).check hasText limit) := by
  rw [check]
  rcases Int.lt_or_le limit c.fragment.depth with deep | shallow
  · rw [Composition.check_of_deep deep]
    exact .tooDeep deep
  · have result := Composition.check_of_shallow shallow
    generalize c.check limit = answer at result
    cases result with
    | mistyped unfit =>
      dsimp only
      split
      · next named => exact .mistyped shallow unfit (List.all_eq_true.1 named)
      · next unnamed =>
        obtain ⟨key, member, silent⟩ := List.all_eq_false.1 (Bool.eq_false_iff.2 unnamed)
        exact .keyWithoutText shallow unfit member (Bool.eq_false_iff.2 silent)
    | broken fit below =>
      exact .wrapped shallow fit (Cost.below_of_violation below)
        (Fragment.not_fits_of_violation below)
    | @made m fit same =>
      obtain ⟨coherent, covered⟩ := Facts.sound_iff.1 (Fragment.sound_of_facts? m.typed)
      exact .made shallow fit same coherent covered

/-- The check answers as it should or breaks off, and it is plain which. It answers whenever it is
handed one of the forms of fragments, with keys that have texts and operations that are a word. -/
theorem check_outcome (hasText : Key → Bool) (limit : Int) (t : Terminal) :
    Outcome hasText limit t (t.check hasText limit) ∧
      ∀ c, t = .composed c → (∀ key ∈ c.fragment.keys, hasText key = true) → c.fragment.Fits →
        ∃ answer, t.check hasText limit = .ok answer := by
  have outcome : Outcome hasText limit t (t.check hasText limit) := by
    cases t with
    | composed c => exact outcome_composed hasText limit c
    | foreign parts =>
      rw [check]
      split
      · next deep => exact .tooDeep deep
      · next shallow => exact .unknownForm (Int.not_lt.1 shallow)
  refine ⟨outcome, ?_⟩
  rintro c rfl named fits
  generalize (composed c).check hasText limit = answer at outcome
  cases outcome with
  | keyWithoutText _ _ member unnamed =>
    rw [named _ member] at unnamed
    cases unnamed
  | wrapped _ _ _ large => exact absurd fits large
  | _ => exact ⟨_, rfl⟩

/-- `v:thresh_m(1,G)`, which has one operation of its own and a key on top of it. -/
def oneOfOne : Fragment := .wrap .verify (.leaf (.multi 1 [.point .generator]))

theorem repeats_oneOfOne :
    Fragment.Repeats ⟨⟨.V, .anyNonZero, false, false⟩, ⟨.none, true, true⟩⟩ :=
  ⟨rfl, rfl⟩

theorem hasType_oneOfOne :
    oneOfOne.HasType ⟨⟨.V, .anyNonZero, false, false⟩, ⟨.none, true, true⟩⟩ := by
  rfl

theorem fits_oneOfOne : (oneOfOne.doubled 0).Fits := by decide

theorem fits_crowd : (oneOfOne.doubled 61).Fits := by
  rw [Fragment.Fits, (oneOfOne.counts_doubled 61).2.2.2]
  decide

/-- So many of them that the operations of a satisfaction are just a word. -/
def crowd : Checked := .doubled repeats_oneOfOne hasType_oneOfOne fits_crowd

/-- The crowd is still checked together with a single one more. -/
theorem check_outcome_crowd :
    ∃ answer, (composed (.pair .andV crowd
      (.doubled repeats_oneOfOne hasType_oneOfOne fits_oneOfOne))).check
      (fun _ => true) defaultLimit = .ok answer := by
  refine (check_outcome (fun _ => true) defaultLimit _).2 _ rfl (fun _ _ => rfl) ?_
  change (Fragment.pair .andV (oneOfOne.doubled 61) oneOfOne).allOps < _
  rw [Fragment.allOps_pair, (oneOfOne.counts_doubled 61).2.2.2]
  decide

/-- Together with itself it has so many operations that their number wraps around, and the check
breaks off. -/
theorem check_breaks_off :
    ¬ ∀ t : Composition, ∃ answer,
      (composed t).check (fun _ => true) defaultLimit = .ok answer := by
  intro answers
  obtain ⟨answer, found⟩ := answers (.pair .andV crowd crowd)
  have outcome := outcome_composed (fun _ => true) defaultLimit
    (.pair .andV crowd crowd)
  rw [found] at outcome
  cases outcome with
  | tooDeep deep =>
    have depth : (oneOfOne.doubled 62).depth = 64 := oneOfOne.depth_doubled 62
    change defaultLimit < ((oneOfOne.doubled 62).depth : Int) at deep
    rw [depth] at deep
    exact absurd deep (by decide)
  | mistyped shallow unfit named => cases unfit
  | @made _ m shallow fit same coherent covered =>
    obtain ⟨-, static, sat, -⟩ := oneOfOne.counts_doubled 61
    have cost : m.cost = (oneOfOne.doubled 62).cost Int64 := by
      rw [Checked.cost, Fragment.cost_of_facts? m.typed, same]
      rfl
    have violated : m.cost.violation? = some .satBelowStatic := by
      rw [cost, Fragment.doubled, Fragment.cost, Fragment.cost_eq_ofExact fits_crowd]
      simp only [Cost.pair, Cost.inRow, Cost.ofExact, static, sat, Cost.violation?]
      decide
    rw [Cost.covered_iff.2 covered] at violated
    cases violated

end Terminal

end LockScript
