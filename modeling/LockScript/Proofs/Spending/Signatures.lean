import LockScript.Proofs.Policy.KeyCount
import LockScript.Proofs.Policy.Lift
import LockScript.Proofs.Typing.Invariants

/-!
Fragments that require a signature.

The type of a fragment says by rules of its own whether every satisfaction requires a signature. The
rules are exact: a fragment is safe just if its policy is not met without signatures
(`Fragment.safe_eq`). So it is safe just if someone who has everything but signatures cannot satisfy
it, and just if the least number of signatures of its policy is not zero.
-/

namespace LockScript

open Condition (isUnsigned)

/-! ## The rules of the types -/

theorem Leaf.safe_eq {l : Leaf} (checked : Facts.checkLeaf l = .ok ()) :
    (Malleability.ofLeaf l).safe = !l.policy.isMet isUnsigned := by
  cases l with
  | multi k keys =>
    have range := Facts.checkThreshold_iff.1 checked
    have unmet : (Leaf.multi k keys).policy.isMet isUnsigned = false := by
      have none : (keys.countP fun key => isUnsigned (.key key)) = 0 := by
        rw [List.countP_eq_zero]
        exact fun key _ => Bool.false_ne_true
      rw [← Bool.not_eq_true, Leaf.isMet_multi_iff, none]
      omega
    rw [unmet]
    rfl
  | _ => rfl

namespace Fragment

/-- Of the parts of a threshold, some are safe and the others are met without signatures. -/
theorem countSafe_add_countP {subs : List Fragment} {fs : List (Facts Int64)}
    (each : List.Forall₂ (fun x fx => x.facts? = .ok fx) subs fs)
    (safe : ∀ x ∈ subs, ∀ fx : Facts Int64, x.facts? = .ok fx →
      fx.type.mall.safe = !x.policy.isMet isUnsigned) :
    Malleability.countSafe (fs.map fun x => x.type.mall)
      + (subs.countP fun x => x.policy.isMet isUnsigned) = subs.length := by
  unfold Malleability.countSafe
  induction each with
  | nil => rfl
  | @cons x fx subs fs head _ ih =>
    have tail := ih fun y member => safe y (List.mem_cons_of_mem _ member)
    have first := safe x List.mem_cons_self fx head
    rw [List.map_cons, List.countP_cons, List.countP_cons, first, List.length_cons]
    cases x.policy.isMet isUnsigned with
    | true =>
      rw [if_neg (by decide), if_pos rfl]
      omega
    | false =>
      rw [if_pos (by decide), if_neg (by decide)]
      omega

/-- A typed fragment is safe just if its policy is not met without signatures. -/
theorem safe_eq {f : Fragment} {facts : Facts Int64} (typed : f.facts? = .ok facts) :
    facts.type.mall.safe = !f.policy.isMet isUnsigned := by
  induction f generalizing facts with
  | leaf l =>
    rcases facts?_leaf_iff.1 typed with ⟨checked, rfl, -⟩
    exact Leaf.safe_eq checked
  | wrap w x ih =>
    rcases facts?_wrap_iff.1 typed with ⟨fx, c, hx, made, rfl, -⟩
    rw [policy, ← ih hx]
    cases w with
    | check =>
      -- the rule takes for granted that a K is safe, which is an invariant of the types
      rcases Facts.sound_iff.1 (sound_of_facts? hx) with ⟨coherent, -⟩
      rw [(coherent.key (Correctness.wrap_check_iff.1 made).1).2]
      rfl
    | _ => rfl
  | pair op x y ihx ihy =>
    rcases facts?_pair_iff.1 typed with ⟨fx, fy, c, hx, hy, -, rfl, -⟩
    rw [isMet_pair]
    cases op <;>
      simp only [Malleability.pair, ihx hx, ihy hy, Combinator.canSatisfy, Bool.not_and,
        Bool.not_or]
  | andor x y z ihx ihy ihz =>
    rcases facts?_andor_iff.1 typed with ⟨fx, fy, fz, c, hx, hy, hz, -, rfl, -⟩
    rw [isMet_andor]
    simp only [Malleability.andor, ihx hx, ihy hy, ihz hz, Bool.not_and, Bool.not_or]
  | thresh k subs ih =>
    rcases facts?_thresh_iff.1 typed with ⟨fs, each, -, -, rfl, -⟩
    have total := countSafe_add_countP each fun x member fx hx => ih x member hx
    have length := each.length_eq
    rw [isMet_thresh, ← decide_not]
    simp only [Malleability.threshold, Counting.toInt_int]
    apply decide_eq_decide.2
    omega

end Fragment

/-! ## Satisfiers without signatures -/

namespace Satisfier

/-- There is no signature at all. -/
def Unsigned (s : Satisfier) : Prop := ∀ key, s.signature key = none

/-- Everything is at hand but signatures. -/
structure LacksOnlySignatures (s : Satisfier) : Prop where
  unsigned : s.Unsigned
  keyForHash (hash : Digest 20) : (s.keyForHash hash).isSome = true
  preimage (f : HashFunction) (image : Digest f.width) : (s.preimage f image).isSome = true
  older (lock : UInt32) : s.older lock = true
  after (lock : UInt32) : s.after lock = true

variable {s : Satisfier}

theorem Unsigned.signs_eq_false (unsigned : s.Unsigned) (key : Key) : s.signs key = false := by
  rw [signs, unsigned key]
  rfl

theorem Unsigned.keyHash_unmet (unsigned : s.Unsigned) (hash : Digest 20) :
    s.meets (.keyHash hash) = false := by
  rw [meets]
  split
  · rfl
  · exact unsigned.signs_eq_false _

/-- What is met without signatures is among the conditions that need none. -/
theorem Unsigned.isUnsigned_of_meets (unsigned : s.Unsigned) (c : Condition)
    (met : s.meets c = true) : isUnsigned c = true := by
  cases c with
  | unsatisfiable => exact met
  | key signer => exact absurd met (by simp [meets, unsigned.signs_eq_false])
  | keyHash committed => exact absurd met (by simp [unsigned.keyHash_unmet])
  | _ => rfl

/-- Someone who lacks only signatures can satisfy the leaves that need none. -/
theorem LacksOnlySignatures.isMet_policy (lacking : s.LacksOnlySignatures) (l : Leaf) :
    l.policy.isMet isUnsigned = l.canSatisfy s := by
  have unsigned := lacking.unsigned
  rw [← Leaf.isMet_policy]
  cases l with
  | pk key => exact (unsigned.signs_eq_false key).symm
  | pkHash hash => exact (unsigned.keyHash_unmet hash).symm
  | after lock => exact (lacking.after lock).symm
  | older lock => exact (lacking.older lock).symm
  | hashLock f image =>
    rw [Leaf.isMet_policy, Leaf.canSatisfy, lacking.preimage]
    rfl
  | multi k keys =>
    rw [Bool.eq_iff_iff, Leaf.isMet_multi_iff, Leaf.isMet_multi_iff]
    simp only [meets, unsigned.signs_eq_false, isUnsigned]
  | _ => rfl

end Satisfier

/-! ## Checked fragments -/

namespace Checked

/-- Whether a fragment is safe is exact. It is safe just if someone who has everything but
signatures cannot satisfy it; then nobody without signatures can. And it is safe just if the least
number of signatures of its policy is not zero, be it that there is none. -/
theorem safe_exact (m : Checked) :
    (∀ s : Satisfier, s.LacksOnlySignatures →
      (m.type.mall.safe = true ↔ m.fragment.canSatisfy s = false)) ∧
    (m.type.mall.safe = true → ∀ s : Satisfier, s.Unsigned → m.fragment.canSatisfy s = false) ∧
    ∀ q, m.fragment.lift = .ok q →
      ∃ n, q.minimumKeys = .ok n ∧ (m.type.mall.safe = true ↔ n ≠ some 0) := by
  have safe : m.type.mall.safe = true ↔ ¬ m.fragment.policy.isMet isUnsigned = true := by
    rw [type, Fragment.safe_eq m.typed, Bool.not_eq_true', Bool.not_eq_true]
  refine ⟨fun s lacking => ?_, fun holds s unsigned => ?_, fun q lifted => ?_⟩
  · rw [safe, Fragment.isMet_policy_of_leaves lacking.isMet_policy, Bool.not_eq_true]
  · rw [← Bool.not_eq_true, ← Fragment.isMet_policy]
    intro met
    exact safe.1 holds (Policy.isMet_mono unsigned.isUnsigned_of_meets met)
  · have counted := Fragment.counted_policy m.typed
    rcases Policy.exists_minimumKeys_unsigned counted.normalized with ⟨n, found, zero⟩
    rw [Fragment.eq_normalized_of_lift lifted]
    refine ⟨n, found, ?_⟩
    rw [safe, ne_eq, zero, Policy.isMet_normalized Condition.consistent_isUnsigned counted]

/-- Someone with everything but signatures. -/
def keyless : Satisfier where
  signature _ := none
  keyForHash _ := some (.named [0x41])
  preimage _ _ := some []
  older _ := true
  after _ := true

/-- `thresh(2,c:pk(A),s:c:pk(B),a:sha256(H))`. -/
def guarded : Checked where
  fragment := .thresh 2 [.wrap .check (.leaf (.pk (.named [0x41]))),
    .wrap .swap (.wrap .check (.leaf (.pk (.named [0x42])))),
    .wrap .alt (.leaf (.hashLock .sha256 (.ofPrefix 32 [1])))]
  facts := ⟨⟨⟨.B, .any, true, true⟩, ⟨.unknown, true, false⟩⟩,
    ⟨.safe, 116, true, 12, some 12, some 12⟩⟩
  typed := by rfl

/-- `or_i(c:pk(A),and_v(v:sha256(H),older(144)))`. -/
def unguarded : Checked where
  fragment := .pair .orI (.wrap .check (.leaf (.pk (.named [0x41]))))
    (.pair .andV (.wrap .verify (.leaf (.hashLock .sha256 (.ofPrefix 32 [1]))))
      (.leaf (.older 144)))
  facts := ⟨⟨⟨.B, .any, true, false⟩, ⟨.unique, false, true⟩⟩,
    ⟨.segwitOnly, 81, false, 9, some 9, some 9⟩⟩
  typed := by rfl

theorem safe_exact_guarded :
    keyless.LacksOnlySignatures ∧
      (guarded.type.mall.safe = true ∧ guarded.fragment.canSatisfy keyless = false ∧
        ∃ q n, guarded.fragment.lift = .ok q ∧ q.minimumKeys = .ok n ∧ n ≠ some 0) ∧
      (unguarded.type.mall.safe = false ∧ unguarded.fragment.canSatisfy keyless = true ∧
        ∃ q n, unguarded.fragment.lift = .ok q ∧ q.minimumKeys = .ok n ∧ n = some 0) := by
  have lacking : keyless.LacksOnlySignatures :=
    ⟨fun _ => rfl, fun _ => rfl, fun _ _ => rfl, fun _ => rfl, fun _ => rfl⟩
  rcases safe_exact guarded with ⟨-, nobody, counts⟩
  rcases counts _ rfl with ⟨n, found, positive⟩
  rcases safe_exact unguarded with ⟨exactly, -, counts'⟩
  rcases counts' _ rfl with ⟨n', found', positive'⟩
  have lax : ¬ unguarded.type.mall.safe = true := by decide
  refine ⟨lacking, ⟨rfl, nobody rfl keyless lacking.unsigned, _, n, rfl, found, positive.1 rfl⟩,
    rfl, ?_, _, n', rfl, found', ?_⟩
  · rw [exactly keyless lacking, Bool.not_eq_false] at lax
    exact lax
  · rw [positive', ne_eq, Decidable.not_not] at lax
    exact lax

end Checked

end LockScript
