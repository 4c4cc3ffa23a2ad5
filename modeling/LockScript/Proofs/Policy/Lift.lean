import LockScript.Policy.Lift
import LockScript.Spending.Satisfier
import LockScript.Proofs.Policy.Evaluation
import LockScript.Proofs.Typing.Inversion

/-!
The policy of a fragment says who can satisfy it.

A satisfier meets some conditions and not others. The policy that a fragment enforces is met by
these just if the satisfier can satisfy the fragment (`Fragment.isMet_policy`). The thresholds of
the policy of a typed fragment are counted from zero on, as normal forms expect them to be, so that
the policy that is lifted from the fragment says the same.
-/

namespace LockScript

/-- Whether a satisfier meets a condition. -/
def Satisfier.meets (s : Satisfier) : Condition → Bool
  | .unsatisfiable => false
  | .trivial => true
  | .key signer => s.signs signer
  | .keyHash committed => match s.keyForHash committed with
    | none => false
    | some key => s.signs key
  | .after lock => s.after lock
  | .older lock => s.older lock
  | .hash f image =>
    if width : image.length = f.width then (s.preimage f ⟨image, width⟩).isSome else false
  | .other _ => false

theorem Satisfier.consistent_meets (s : Satisfier) : Condition.Consistent s.meets := ⟨rfl, rfl⟩

variable {s : Satisfier} {met : Condition → Bool}

theorem Leaf.isMet_multi_iff {k : Int} {keys : List Key} :
    (Leaf.multi k keys).policy.isMet met = true ↔ k ≤ keys.countP fun key => met (.key key) := by
  rw [Leaf.policy, Policy.isMet_threshold_iff, List.countP_map]
  rfl

theorem Leaf.isMet_policy (l : Leaf) : l.policy.isMet s.meets = l.canSatisfy s := by
  cases l with
  | hashLock f image =>
    rw [Leaf.policy, Policy.isMet, Satisfier.meets, dif_pos image.length_bytes]
    rfl
  | multi k keys =>
    rw [Bool.eq_iff_iff, isMet_multi_iff, Leaf.canSatisfy, decide_eq_true_eq]
    rfl
  | _ => rfl

namespace Fragment

theorem isMet_pair (op : Combinator) (x y : Fragment) :
    (pair op x y).policy.isMet met = op.canSatisfy (x.policy.isMet met) (y.policy.isMet met) := by
  cases op with
  | andV => exact Policy.isMet_both _ _
  | andB => exact Policy.isMet_both _ _
  | _ => exact Policy.isMet_either _ _

theorem isMet_andor (x y z : Fragment) :
    (andor x y z).policy.isMet met
      = (x.policy.isMet met && y.policy.isMet met || z.policy.isMet met) := by
  rw [policy, Policy.isMet_either, Policy.isMet_both]

theorem isMet_thresh (k : Int) (subs : List Fragment) :
    (thresh k subs).policy.isMet met
      = decide (k ≤ subs.countP fun x => x.policy.isMet met) := by
  rw [policy, policies_eq_map, Policy.isMet, Policy.countMet_eq_countP, List.countP_map]
  rfl

/-- If the answers suit the leaves, they suit the fragment: its policy is met just if it can be
satisfied. -/
theorem isMet_policy_of_leaves (leaves : ∀ l : Leaf, l.policy.isMet met = l.canSatisfy s)
    (f : Fragment) : f.policy.isMet met = f.canSatisfy s := by
  induction f with
  | leaf l => exact leaves l
  | wrap w x ih => exact ih
  | pair op x y ihx ihy => rw [isMet_pair, ihx, ihy, canSatisfy]
  | andor x y z ihx ihy ihz => rw [isMet_andor, ihx, ihy, ihz, canSatisfy]
  | thresh k subs ih =>
    have same : (subs.countP fun x => x.policy.isMet met) = subs.countP (canSatisfy s) := by
      apply List.countP_congr
      intro x member
      rw [ih x member]
    rw [isMet_thresh, same, canSatisfy, countSatisfiable_eq_countP]

theorem isMet_policy (s : Satisfier) (f : Fragment) : f.policy.isMet s.meets = f.canSatisfy s :=
  isMet_policy_of_leaves Leaf.isMet_policy f

/-- The policy of a typed fragment asks for no negative number of branches. -/
theorem counted_policy {f : Fragment} {facts : Facts Int64} (typed : f.facts? = .ok facts) :
    f.policy.Counted := by
  induction f generalizing facts with
  | leaf l =>
    rcases facts?_leaf_iff.1 typed with ⟨checked, -⟩
    cases l with
    | multi k keys =>
      have range := Facts.checkThreshold_iff.1 checked
      apply Policy.Counted.threshold (by omega)
      intro p member
      rcases List.mem_map.1 member with ⟨key, -, rfl⟩
      exact .leaf _ _
    | _ => exact .leaf _ _
  | wrap w x ih =>
    rcases facts?_wrap_iff.1 typed with ⟨fx, _, hx, -⟩
    exact ih hx
  | pair op x y ihx ihy =>
    rcases facts?_pair_iff.1 typed with ⟨fx, fy, _, hx, hy, -⟩
    apply Policy.Counted.threshold
    · cases op <;> decide
    · simp [ihx hx, ihy hy]
  | andor x y z ihx ihy ihz =>
    rcases facts?_andor_iff.1 typed with ⟨fx, fy, fz, _, hx, hy, hz, -⟩
    have both : (Policy.threshold 2 [x.policy, y.policy]).Counted :=
      .threshold (by decide) (by simp [ihx hx, ihy hy])
    exact .threshold (by decide) (by simp [both, ihz hz])
  | thresh k subs ih =>
    rcases facts?_thresh_iff.1 typed with ⟨fs, each, checked, -⟩
    have range := Facts.checkThreshold_iff.1 checked
    rw [policy, policies_eq_map]
    apply Policy.Counted.threshold (by omega)
    intro p member
    rcases List.mem_map.1 member with ⟨x, inside, rfl⟩
    rcases exists_facts?_of_mem each inside with ⟨fx, -, hx⟩
    exact ih x inside hx

theorem eq_normalized_of_lift {f : Fragment} {q : Policy} (lifted : f.lift = .ok q) :
    q = f.policy.normalized := by
  rcases bind_eq_ok_iff.1 lifted with ⟨u, -, result⟩
  cases result
  rfl

end Fragment

/-! ## Checked fragments -/

namespace Checked

/-- The lifted policy of a fragment says who can satisfy it: a satisfier can just if the conditions
that it meets meet the policy. -/
theorem lift_tells_canSatisfy {m : Checked} {q : Policy} (lifted : m.fragment.lift = .ok q)
    (s : Satisfier) : m.fragment.canSatisfy s = true ↔ q.isMet s.meets = true := by
  have counted := Fragment.counted_policy m.typed
  rw [Fragment.eq_normalized_of_lift lifted, Policy.isMet_normalized s.consistent_meets counted,
    Fragment.isMet_policy]

/-- `thresh(2,c:pk(A),a:c:pk_h(H),s:or_i(0,n:older(144)),a:0)`. -/
def recounted : Checked where
  fragment := .thresh 2 [.wrap .check (.leaf (.pk (.named [0x41]))),
    .wrap .alt (.wrap .check (.leaf (.pkHash (.ofPrefix 20 [1])))),
    .wrap .swap (.pair .orI (.leaf .zero) (.wrap .zeroNotEqual (.leaf (.older 144)))),
    .wrap .alt (.leaf .zero)]
  facts := ⟨⟨⟨.B, .any, true, true⟩, ⟨.unknown, true, true⟩⟩,
    ⟨.segwitOnly, 80, true, 19, some 19, some 19⟩⟩
  typed := by rfl

/-- What is left of `recounted` once the branches that cannot be met are dropped. -/
def recountedPolicy : Policy :=
  .threshold 2 [.leaf (.key (.named [0x41])) [], .leaf (.keyHash (.ofPrefix 20 [1])) [],
    .leaf (.older 144) []]

/-- Someone with a signature by `A`, at a given age. -/
def signedByA (age : UInt32) : Satisfier where
  signature key := if key = .named [0x41] then some [7] else none
  keyForHash _ := some (.named [0x42])
  preimage _ _ := none
  older lock := lock ≤ age
  after _ := false

theorem lift_tells_canSatisfy_recounted :
    recounted.fragment.lift = .ok recountedPolicy ∧
      (recounted.fragment.canSatisfy (signedByA 144) = true ∧
        recountedPolicy.isMet (signedByA 144).meets = true) ∧
      recounted.fragment.canSatisfy (signedByA 143) = false ∧
        recountedPolicy.isMet (signedByA 143).meets = false := by
  have lifted : recounted.fragment.lift = .ok recountedPolicy := by rfl
  have old := lift_tells_canSatisfy lifted (signedByA 144)
  have young := not_congr (lift_tells_canSatisfy lifted (signedByA 143))
  rw [Bool.not_eq_true, Bool.not_eq_true] at young
  have can : recounted.fragment.canSatisfy (signedByA 144) = true := by decide +kernel
  have cannot : recounted.fragment.canSatisfy (signedByA 143) = false := by decide +kernel
  exact ⟨lifted, ⟨can, old.1 can⟩, cannot, young.1 cannot⟩

end Checked

end LockScript
