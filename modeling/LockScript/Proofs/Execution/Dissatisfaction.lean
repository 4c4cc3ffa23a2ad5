import LockScript.Proofs.Execution.Outcome
import LockScript.Proofs.Execution.Satisfaction
import LockScript.Proofs.Spending.Signatures

/-!
Fragments that only a signature dissatisfies.

A type without dissatisfactions promises that nobody can make the fragment come to a false value
without a signature: where no signature is accepted, a run of its script fails or leaves a true value.
The rules of the type work this out from two sides. One part of a conjunction may well be
dissatisfied, as long as the other is safe and has no dissatisfaction itself. For then the other would
have to come to a true value, which takes a signature (`not_shows_of_safe`), so that the run fails
before the conjunction has a value.
-/

namespace LockScript

open Machine

/-! ## The rules of the types -/

namespace Malleability

variable {x y z l r : Malleability}

theorem andDissat_eq_none_iff :
    andDissat l r = .none ↔ (l.dissat = .none ∧ r.dissat = .none) ∨
      (l.dissat = .none ∧ l.safe = true) ∨ (r.dissat = .none ∧ r.safe = true) := by
  grind [andDissat]

theorem choiceDissat_eq_none_iff {l r : Dissat} :
    choiceDissat l r = .none ↔ l = .none ∧ r = .none := by
  grind [choiceDissat]

theorem andorDissat_eq_none_iff :
    andorDissat x y z = .none ↔ z.dissat = .none ∧ (y.dissat = .none ∨ x.safe = true) := by
  grind [andorDissat]

theorem threshold_ne_none (k n : Int) (subs : List Malleability) :
    (threshold k n subs).dissat ≠ .none := by
  grind [threshold]

end Malleability

/-! ## Safe fragments -/

/-- No signature is accepted for any key. -/
def Environment.Unsigned (env : Environment) : Prop :=
  ∀ key sig, env.accepts key sig = false

open Classical in
/-- What is accepted in an environment apart from signatures. -/
noncomputable def Environment.unsignedSatisfier (env : Environment) : Satisfier where
  signature _ := none
  keyForHash _ := none
  preimage f image := if ∃ d : Bytes, d.length = 32 ∧ env.digest f d = image then some [] else none
  older lock := env.older lock.toNat
  after lock := env.after lock.toNat

namespace Machine

variable {env : Environment} {f : Fragment} {facts : Facts Int64} {st alt rest : Stack} {v : Bytes}
  {inside : List Branch} {t : State}

theorem not_signed (unsigned : env.Unsigned) (k : Key) : ¬ env.Signed k := by
  intro signed
  rcases signed with ⟨sig, accepted⟩
  rw [unsigned] at accepted
  cases accepted

theorem unsignedSatisfier_describes (unsigned : env.Unsigned) :
    env.unsignedSatisfier.Describes env where
  signature k := iff_of_false Bool.false_ne_true (not_signed unsigned k)
  keyForHash hash found := by
    rcases found with ⟨k, -, signed⟩
    exact absurd signed (not_signed unsigned k)
  preimage f image := by simp [Environment.unsignedSatisfier]
  older _ := Iff.rfl
  after _ := Iff.rfl

/-- A safe fragment does not come to a value that shows that it was satisfied. -/
theorem not_shows_of_safe (unsigned : env.Unsigned) (typed : f.facts? = .ok facts)
    (safe : facts.type.mall.safe = true) (evaluated : Evaluates env f st v rest) :
    ¬ Shows env facts.type.corr.base v rest := by
  intro shown
  have describes := unsignedSatisfier_describes unsigned
  have can := canSatisfy_of_evaluates describes typed evaluated shown
  rw [← Fragment.isMet_policy] at can
  have none : env.unsignedSatisfier.Unsigned := fun key => rfl
  have met := Policy.isMet_mono none.isUnsigned_of_meets can
  rw [Fragment.safe_eq typed, met] at safe
  cases safe

/-! ## Fragments without dissatisfactions -/

/-- A true operand is not 0. -/
theorem operand?_ne_zero {d : Bytes} {n : Int} (set : isTrue d = true)
    (read : operand? d = some n) : n ≠ 0 := by
  intro zero
  have value := operand?_eq_some read
  unfold operand? number? at read
  split at read
  · next short =>
    rw [zero] at value
    rw [← ScriptNumber.encode_of_isMinimal (n := 0) short.2 value] at set
    cases set
  · cases read

theorem isTrue_of_shows {b : Base} (among : b = .B ∨ b = .W) (shown : Shows env b v rest) :
    isTrue v = true := by
  rcases among with rfl | rfl
  · exact shown
  · exact shown

theorem shows_leaf {l : Leaf} (checked : Facts.checkLeaf l = .ok ())
    (never : (Malleability.ofLeaf l).dissat = .none) (evaluated : EvaluatesLeaf env l st v rest) :
    Shows env (Correctness.ofLeaf l).base v rest := by
  cases evaluated with
  | one => rfl
  | after passes => exact isTrue_encode (Facts.toNat_ne_zero_of_checked checked)
  | older passes => exact isTrue_encode (Facts.toNat_ne_zero_of_checked checked)
  | zero => cases never
  | pk known => cases never
  | pkHash committed => cases never
  | hashLock size => cases never
  | multi known enough => cases never

/-- Where no signature is accepted, a fragment without dissatisfactions comes to values that show that
it was satisfied, if it comes to any. -/
theorem shows_of_evaluates (unsigned : env.Unsigned) (typed : f.facts? = .ok facts)
    (never : facts.type.mall.dissat = .none) (evaluated : Evaluates env f st v rest) :
    Shows env facts.type.corr.base v rest := by
  induction f generalizing facts st v rest with
  | leaf l =>
    rcases Fragment.facts?_leaf_iff.1 typed with ⟨checked, rfl, -⟩
    cases evaluated with
    | leaf evaluated => exact shows_leaf checked never evaluated
  | wrap w x ih =>
    rcases Fragment.facts?_wrap_iff.1 typed with ⟨fx, c, hx, made, rfl, -⟩
    cases evaluated with
    | alt inner =>
      rcases Correctness.wrap_alt_iff.1 made with ⟨base, rfl⟩
      exact isTrue_of_shows (.inl base) (ih hx never inner)
    | swap inner =>
      rcases Correctness.wrap_swap_iff.1 made with ⟨base, -, rfl⟩
      exact isTrue_of_shows (.inl base) (ih hx never inner)
    | check inner =>
      rcases Correctness.wrap_check_iff.1 made with ⟨base, rfl⟩
      have shown := ih hx never inner
      rw [base] at shown
      rcases shown with ⟨sig, below, -, accepted⟩
      rw [unsigned] at accepted
      cases accepted
    | dupIf set inner => exact absurd never (Malleability.withDissat_ne_none _)
    | dupIfNot clear => exact absurd never (Malleability.withDissat_ne_none _)
    | verify inner set =>
      rcases Correctness.wrap_verify_iff.1 made with ⟨-, rfl⟩
      trivial
    | nonZero nonempty inner => exact absurd never (Malleability.withDissat_ne_none _)
    | nonZeroNot => exact absurd never (Malleability.withDissat_ne_none _)
    | zeroNotEqual inner read =>
      rcases Correctness.wrap_zeroNotEqual_iff.1 made with ⟨base, rfl⟩
      have set := isTrue_of_shows (.inl base) (ih hx never inner)
      exact (isTrue_flag _).trans (decide_eq_true (operand?_ne_zero set read))
  | pair op x y ihx ihy =>
    rcases Fragment.facts?_pair_iff.1 typed with ⟨fx, fy, c, hx, hy, made, rfl, -⟩
    cases evaluated with
    | andV first second =>
      rcases Correctness.pair_andV_iff.1 made with ⟨base, -, rfl⟩
      rcases Malleability.andDissat_eq_none_iff.1 never with both | left | right
      · have shown := ihy hy both.2 second
        exact shown
      · exact absurd (ihx hx left.1 first) (not_shows_of_safe unsigned hx left.2 first)
      · exact absurd (ihy hy right.1 second) (not_shows_of_safe unsigned hy right.2 second)
    | andB first second read read' =>
      rcases Correctness.pair_andB_iff.1 made with ⟨base, base', rfl⟩
      rcases Malleability.andDissat_eq_none_iff.1 never with both | left | right
      · have set := isTrue_of_shows (.inl base) (ihx hx both.1 first)
        have set' := isTrue_of_shows (.inr base') (ihy hy both.2 second)
        rw [← eq_of_takes_W hy base' second] at set
        exact (isTrue_flag _).trans
          (decide_eq_true ⟨operand?_ne_zero set read, operand?_ne_zero set' read'⟩)
      · exact absurd (ihx hx left.1 first) (not_shows_of_safe unsigned hx left.2 first)
      · exact absurd (ihy hy right.1 second) (not_shows_of_safe unsigned hy right.2 second)
    | orB first second read read' => cases never
    | orD first set =>
      rcases Correctness.pair_orD_iff.1 made with ⟨-, -, -, -, rfl⟩
      exact set
    | orDElse first clear second =>
      rcases Correctness.pair_orD_iff.1 made with ⟨-, base, -, -, rfl⟩
      exact isTrue_of_shows (.inl base) (ihy hy never second)
    | orC first set =>
      rcases Correctness.pair_orC_iff.1 made with ⟨-, -, -, -, rfl⟩
      trivial
    | orCElse first clear second =>
      rcases Correctness.pair_orC_iff.1 made with ⟨-, -, -, -, rfl⟩
      trivial
    | orI set inner =>
      rcases Correctness.pair_orI_iff.1 made with ⟨-, -, rfl⟩
      have shown := ihx hx (Malleability.choiceDissat_eq_none_iff.1 never).1 inner
      exact shown
    | orIElse clear inner =>
      rcases Correctness.pair_orI_iff.1 made with ⟨same, -, rfl⟩
      have shown := ihy hy (Malleability.choiceDissat_eq_none_iff.1 never).2 inner
      rw [← same] at shown
      exact shown
  | andor x y z ihx ihy ihz =>
    rcases Fragment.facts?_andor_iff.1 typed with ⟨fx, fy, fz, c, hx, hy, hz, made, rfl, -⟩
    rcases Correctness.andor_iff.1 made with ⟨base, same, -, -, -, rfl⟩
    rcases Malleability.andorDissat_eq_none_iff.1 never with ⟨last, others⟩
    cases evaluated with
    | andor first set second =>
      rcases others with middle | safe
      · have shown := ihy hy middle second
        exact shown
      · exact absurd (shows_of_isTrue base set) (not_shows_of_safe unsigned hx safe first)
    | andorElse first clear second =>
      have shown := ihz hz last second
      rw [← same] at shown
      exact shown
  | thresh k subs ih =>
    rcases Fragment.facts?_thresh_iff.1 typed with ⟨fs, -, -, -, rfl, -⟩
    exact absurd never (Malleability.threshold_ne_none _ _ _)

end Machine

/-! ## Runs -/

/-- The value that a fragment of this base has left, once it is closed, where the main stack was
`before` and is `after` now: none for a V, and next to the element that was on top for a W. -/
def Base.value? : Base → (before after : Stack) → Option Bytes
  | .V, _, _ => none
  | .W, x :: _, a :: b :: _ => some (if a = x then b else a)
  | .W, _, _ => none
  | _, _, after => after.head?

/-- A fragment of this base that leaves a value has left a true one. -/
def Base.LeavesTrue (b : Base) (before after : Stack) : Prop :=
  b ≠ .V → ∃ v, b.value? before after = some v ∧ isTrue v = true

namespace Machine

variable {env : Environment} {f : Fragment} {facts : Facts Int64} {st alt : Stack}
  {inside : List Branch} {t : State}

theorem leavesTrue_of_run_words (unsigned : env.Unsigned) (typed : f.facts? = .ok facts)
    (never : facts.type.mall.dissat = .none) (running : isRunning inside = true)
    (ran : run env (f.words ++ facts.type.corr.base.closing) ⟨st, alt, inside⟩ = some t) :
    facts.type.corr.base.LeavesTrue st t.main := by
  rcases simulated typed running ran with ⟨v, rest, main, evaluated, placed, ran⟩
  have taken := evaluated.takes typed
  have shown := shows_of_evaluates unsigned typed never evaluated
  generalize facts.type.corr.base = base at *
  intro result
  cases base with
  | V => exact absurd rfl result
  | B =>
    cases placed
    cases ran
    exact ⟨v, rfl, shown⟩
  | W =>
    cases ran
    rcases placed with ⟨d, below, rfl, order⟩
    rcases taken with ⟨x, above, below', rfl, same, -⟩
    cases same
    refine ⟨v, ?_, shown⟩
    rcases order with rfl | rfl
    · by_cases equal : v = d <;> simp [Base.value?, equal]
    · simp [Base.value?]
  | K =>
    rcases shown with ⟨sig, below, -, accepted⟩
    rw [unsigned] at accepted
    cases accepted
  | other code => cases placed

/-- Without a signature nobody dissatisfies a fragment whose type has no dissatisfaction. Where no
signature is accepted, its instructions fail on any two stacks or leave a true value there, once a K
is closed, and so do the bytes that they are written as. -/
theorem run_never_dissatisfies (m : Checked) (never : m.type.mall.dissat = .none)
    (unsigned : env.Unsigned) (running : isRunning inside = true) :
    (run env (m.fragment.instructions false ++ m.type.corr.base.closing) ⟨st, alt, inside⟩
        = some t →
      m.type.corr.base.LeavesTrue st t.main) ∧
    ∀ b, m.fragment.script = .ok b →
      runElements env
        (Script.elements (b ++ m.type.corr.base.closing.flatMap Instruction.bytes))
        ⟨st, alt, inside⟩ = some t →
      m.type.corr.base.LeavesTrue st t.main := by
  refine ⟨fun ran => ?_, fun b written ran => ?_⟩
  · rw [run_append, run_instructions, ← run_append] at ran
    exact leavesTrue_of_run_words unsigned m.typed never running ran
  · have readable : ∀ i ∈ m.type.corr.base.closing, i.Readable := by
      cases m.type.corr.base <;> simp [Base.closing]
    rw [runElements_script env m.typed written readable] at ran
    exact leavesTrue_of_run_words unsigned m.typed never running ran

/-- `a:andor(c:pk(G),sha256(I),older(3))`, in which `sha256(I)` can be dissatisfied but is only run
after a signature. -/
def fallback : Checked where
  fragment := .wrap .alt (.andor (.wrap .check (.leaf (.pk (.point .generator))))
    (.leaf (.hashLock .sha256 (.ofPrefix 32 [1]))) (.leaf (.older 3)))
  facts := ⟨⟨⟨.W, .any, false, false⟩, ⟨.none, false, true⟩⟩,
    ⟨.safe, 81, false, 11, some 11, none⟩⟩
  typed := by rfl

/-- Like `toyEnvironment`, but no signature is accepted. -/
def signatureless : Environment := { toyEnvironment with accepts := fun _ _ => false }

theorem run_never_dissatisfies_fallback :
    run signatureless (fallback.fragment.instructions false) ⟨[[9], [7], [5]], [[8]], []⟩
        = some ⟨[[9], [3], [5]], [[8]], []⟩ ∧
      Base.W.LeavesTrue [[9], [7], [5]] [[9], [3], [5]] := by
  have ran : run signatureless (fallback.fragment.instructions false) ⟨[[9], [7], [5]], [[8]], []⟩
      = some ⟨[[9], [3], [5]], [[8]], []⟩ := by
    decide +kernel
  have unsigned : signatureless.Unsigned := fun _ _ => rfl
  exact ⟨ran, (run_never_dissatisfies fallback rfl unsigned rfl).1 ran⟩

end Machine

end LockScript
