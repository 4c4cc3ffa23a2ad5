import LockScript.Proofs.Policy.Decision
import LockScript.Proofs.Policy.KeyCount
import LockScript.Proofs.Policy.Lift
import LockScript.Proofs.Typing.Wrapping

/-!
Fragments that can be satisfied at all.

Whether there is a way to satisfy a fragment is told four times over, by rules that know nothing of
each other: its cost has operations for a satisfaction, someone who has everything can satisfy it, the
normal form of its policy is not the unsatisfiable one, and its policy has a least number of
signatures. All four come to whether the policy is met when every condition that can be met is
(`Condition.isSatisfiable`). Likewise the cost has operations for a dissatisfaction just if the type
says that there is one, and it is this that makes the costs of disjunctions exact.
-/

namespace LockScript

open Condition (isSatisfiable)

namespace Policy

/-! ## Least numbers of signatures -/

/-- A policy has a least number of signatures just if it can be met. -/
theorem exists_minimumKeys {p : Policy} (counted : p.Counted) :
    ∃ n, p.minimumKeys = .ok n ∧ n.isSome = p.isMet isSatisfiable := by
  have within : (fun c : Condition => decide (c.price < ⊤)) = isSatisfiable := by
    funext c
    cases c <;> rfl
  obtain ⟨n, found, tells⟩ := additive_lt_top.exists_minimumKeys counted
  refine ⟨n, found, ?_⟩
  rw [← within, ← tells]
  cases n <;> rfl

end Policy

/-! ## Costs -/

/-- Among parts that can all be dissatisfied, exactly `k` can be satisfied if at least `k` can. -/
theorem Cost.isSome_mostOps {k : Int} {subs : List (Cost Int)}
    (dissatisfiable : ∀ c ∈ subs, c.dissatOps.isSome = true) :
    (mostOps k subs).isSome = decide (0 ≤ k ∧ k ≤ subs.countP fun c => c.satOps.isSome) := by
  induction subs generalizing k with
  | nil =>
    rw [mostOps, List.countP_nil]
    by_cases zero : k = 0
    · rw [if_pos zero, decide_eq_true (by omega)]
      rfl
    · rw [if_neg zero, decide_eq_false (by omega)]
      rfl
  | cons c rest ih =>
    rcases List.forall_mem_cons.1 dissatisfiable with ⟨first, others⟩
    rw [mostOps, OpCount.isSome_or, OpCount.isSome_and, OpCount.isSome_and, first, ih others,
      ih others, Bool.true_and, List.countP_cons, Bool.eq_iff_iff]
    cases c.satOps.isSome with
    | true =>
      simp only [Bool.true_and, Bool.or_eq_true, decide_eq_true_eq, if_true]
      omega
    | false => simp

theorem Correctness.dissatisfiable_of_checkSubs {cs : List Correctness}
    (accepted : checkSubs 0 cs = .ok ()) : ∀ c ∈ cs, c.dissatisfiable = true := by
  cases cs with
  | nil => simp
  | cons c rest =>
    rcases checkSubs_zero_cons_iff.1 accepted with ⟨⟨-, -, first⟩, others⟩
    exact List.forall_mem_cons.2 ⟨first, fun d member => (others d member).2.2⟩

theorem Leaf.isMet_multi_isSatisfiable {k : Int} {keys : List Key}
    (checked : Facts.checkLeaf (.multi k keys) = .ok ()) :
    (multi k keys).policy.isMet isSatisfiable = true := by
  have range := Facts.checkThreshold_iff.1 checked
  have all : (keys.countP fun key => isSatisfiable (.key key)) = keys.length := by
    rw [List.countP_eq_length]
    exact fun key _ => rfl
  rw [isMet_multi_iff, all]
  exact range.2

namespace Fragment

variable {f : Fragment} {facts : Facts Int64}

/-- Each part of a threshold can be dissatisfied, also by its cost if that agrees with the type. -/
theorem isSome_dissatOps_of_mem_costs {k : Int} {subs : List Fragment}
    (typed : (thresh k subs).facts? = .ok facts)
    (agree : ∀ x ∈ subs, ∀ fx : Facts Int64, x.facts? = .ok fx →
      (x.cost Int).dissatOps.isSome = fx.type.corr.dissatisfiable) :
    ∀ c ∈ costs Int subs, c.dissatOps.isSome = true := by
  rcases facts?_thresh_iff.1 typed with ⟨fs, each, -, accepted, -⟩
  have dissatisfiable := Correctness.dissatisfiable_of_checkSubs accepted
  intro c member
  rw [costs_eq_map] at member
  rcases List.mem_map.1 member with ⟨x, part, rfl⟩
  rcases exists_facts?_of_mem each part with ⟨fx, inside, hx⟩
  rw [agree x part fx hx]
  exact dissatisfiable _ (List.mem_map_of_mem inside)

/-- There are operations of a dissatisfaction just if the type says that there is one. -/
theorem isSome_dissatOps (typed : f.facts? = .ok facts) :
    (f.cost Int).dissatOps.isSome = facts.type.corr.dissatisfiable := by
  induction f generalizing facts with
  | leaf l =>
    rcases facts?_leaf_iff.1 typed with ⟨-, rfl, -⟩
    cases l <;> rfl
  | wrap w x ih =>
    rcases facts?_wrap_iff.1 typed with ⟨fx, c, hx, made, rfl, -⟩
    have inner := ih hx
    cases w with
    | alt =>
      rcases Correctness.wrap_alt_iff.1 made with ⟨-, rfl⟩
      exact (OpCount.isSome_plus _ _).trans inner
    | swap =>
      rcases Correctness.wrap_swap_iff.1 made with ⟨-, -, rfl⟩
      exact (OpCount.isSome_plus _ _).trans inner
    | check =>
      rcases Correctness.wrap_check_iff.1 made with ⟨-, rfl⟩
      exact (OpCount.isSome_plus _ _).trans inner
    | zeroNotEqual =>
      rcases Correctness.wrap_zeroNotEqual_iff.1 made with ⟨-, rfl⟩
      exact (OpCount.isSome_plus _ _).trans inner
    | dupIf =>
      rcases Correctness.wrap_dupIf_iff.1 made with ⟨-, -, rfl⟩
      rfl
    | verify =>
      rcases Correctness.wrap_verify_iff.1 made with ⟨-, rfl⟩
      rfl
    | nonZero =>
      rcases Correctness.wrap_nonZero_iff.1 made with ⟨-, -, rfl⟩
      rfl
  | pair op x y ihx ihy =>
    rcases facts?_pair_iff.1 typed with ⟨fx, fy, c, hx, hy, made, rfl, -⟩
    have left := ihx hx
    have right := ihy hy
    cases op with
    | andB =>
      rcases Correctness.pair_andB_iff.1 made with ⟨-, -, rfl⟩
      simp [cost, Cost.pair, Cost.addOps, Cost.inRow, left, right]
    | andV =>
      rcases Correctness.pair_andV_iff.1 made with ⟨-, -, rfl⟩
      rfl
    | orB =>
      rcases Correctness.pair_orB_iff.1 made with ⟨-, -, dx, dy, rfl⟩
      simp [cost, Cost.pair, Cost.addOps, Cost.inRow, left, right, dx, dy]
    | orD =>
      rcases Correctness.pair_orD_iff.1 made with ⟨-, -, dx, -, rfl⟩
      simp [cost, Cost.pair, Cost.addOps, Cost.inRow, left, right, dx]
    | orC =>
      rcases Correctness.pair_orC_iff.1 made with ⟨-, -, -, -, rfl⟩
      rfl
    | orI =>
      rcases Correctness.pair_orI_iff.1 made with ⟨-, -, rfl⟩
      simp [cost, Cost.pair, Cost.addOps, Cost.inRow, left, right]
  | andor x y z ihx ihy ihz =>
    rcases facts?_andor_iff.1 typed with ⟨fx, fy, fz, c, hx, hy, hz, made, rfl, -⟩
    rcases Correctness.andor_iff.1 made with ⟨-, -, -, dx, -, rfl⟩
    simp [cost, Cost.andor, Cost.addOps, ihx hx, dx, ihz hz]
  | thresh k subs ih =>
    have all := isSome_dissatOps_of_mem_costs typed fun x member fx hx => ih x member hx
    rcases facts?_thresh_iff.1 typed with ⟨fs, -, -, -, rfl, -⟩
    rw [cost, Cost.dissatOps_threshold, OpCount.isSome_plus, Cost.isSome_mostOps all]
    exact decide_eq_true ⟨Int.le_refl 0, Int.natCast_nonneg _⟩

/-- There are operations of a satisfaction just if the policy can be met. In a disjunction this
rests on a first part that can be dissatisfied. -/
theorem isSome_satOps (typed : f.facts? = .ok facts) :
    (f.cost Int).satOps.isSome = f.policy.isMet isSatisfiable := by
  induction f generalizing facts with
  | leaf l =>
    rcases facts?_leaf_iff.1 typed with ⟨checked, -⟩
    cases l with
    | multi k keys => exact (Leaf.isMet_multi_isSatisfiable checked).symm
    | _ => rfl
  | wrap w x ih =>
    rcases facts?_wrap_iff.1 typed with ⟨fx, -, hx, -⟩
    rw [policy, ← ih hx]
    cases w <;> exact OpCount.isSome_plus _ _
  | pair op x y ihx ihy =>
    rcases facts?_pair_iff.1 typed with ⟨fx, fy, c, hx, hy, made, -⟩
    have left := isSome_dissatOps hx
    have right := isSome_dissatOps hy
    rw [isMet_pair, ← ihx hx, ← ihy hy]
    cases op with
    | andB => simp [cost, Cost.pair, Cost.addOps, Cost.inRow, Combinator.canSatisfy]
    | andV => simp [cost, Cost.pair, Cost.inRow, Combinator.canSatisfy]
    | orB =>
      rcases Correctness.pair_orB_iff.1 made with ⟨-, -, dx, dy, -⟩
      simp [cost, Cost.pair, Cost.addOps, Cost.inRow, Combinator.canSatisfy, left, right, dx, dy]
    | orD =>
      rcases Correctness.pair_orD_iff.1 made with ⟨-, -, dx, -⟩
      simp [cost, Cost.pair, Cost.addOps, Cost.inRow, Cost.elseOps, Combinator.canSatisfy, left, dx]
    | orC =>
      rcases Correctness.pair_orC_iff.1 made with ⟨-, -, dx, -⟩
      simp [cost, Cost.pair, Cost.addOps, Cost.inRow, Cost.elseOps, Combinator.canSatisfy, left, dx]
    | orI => simp [cost, Cost.pair, Cost.addOps, Cost.inRow, Combinator.canSatisfy]
  | andor x y z ihx ihy ihz =>
    rcases facts?_andor_iff.1 typed with ⟨fx, fy, fz, c, hx, hy, hz, made, -⟩
    rcases Correctness.andor_iff.1 made with ⟨-, -, -, dx, -⟩
    rw [isMet_andor, ← ihx hx, ← ihy hy, ← ihz hz]
    simp [cost, Cost.andor, Cost.addOps, isSome_dissatOps hx, dx]
  | thresh k subs ih =>
    have all := isSome_dissatOps_of_mem_costs typed fun x member fx hx => isSome_dissatOps hx
    rcases facts?_thresh_iff.1 typed with ⟨fs, each, checked, -⟩
    have range := Facts.checkThreshold_iff.1 checked
    have same : ((costs Int subs).countP fun c => c.satOps.isSome)
        = subs.countP fun x => x.policy.isMet isSatisfiable := by
      rw [costs_eq_map, List.countP_map]
      apply List.countP_congr
      intro x member
      rcases exists_facts?_of_mem each member with ⟨fx, -, hx⟩
      rw [Function.comp_apply, ih x member hx]
    rw [cost, Cost.satOps_threshold, OpCount.isSome_plus, Cost.isSome_mostOps all, same,
      isMet_thresh]
    apply decide_eq_decide.2
    omega

end Fragment

/-! ## Satisfiers that have everything -/

/-- Everything is at hand: signatures, keys, messages and lock times that have come. -/
structure Satisfier.Obliging (s : Satisfier) : Prop where
  signature (key : Key) : (s.signature key).isSome = true
  keyForHash (hash : Digest 20) : (s.keyForHash hash).isSome = true
  preimage (f : HashFunction) (image : Digest f.width) : (s.preimage f image).isSome = true
  older (lock : UInt32) : s.older lock = true
  after (lock : UInt32) : s.after lock = true

theorem Satisfier.Obliging.isMet_policy {s : Satisfier} (obliging : s.Obliging) (l : Leaf) :
    l.policy.isMet isSatisfiable = l.canSatisfy s := by
  cases l with
  | zero => rfl
  | one => rfl
  | pk key => exact (obliging.signature key).symm
  | pkHash hash =>
    rcases Option.isSome_iff_exists.1 (obliging.keyForHash hash) with ⟨key, found⟩
    rw [Leaf.canSatisfy, found]
    exact (obliging.signature key).symm
  | after lock => exact (obliging.after lock).symm
  | older lock => exact (obliging.older lock).symm
  | hashLock f image => exact (obliging.preimage f image).symm
  | multi k keys =>
    have signs : ∀ key ∈ keys, isSatisfiable (.key key) = true ↔ s.signs key = true :=
      fun key _ => iff_of_true rfl (obliging.signature key)
    rw [Bool.eq_iff_iff, Leaf.isMet_multi_iff, Leaf.canSatisfy, decide_eq_true_eq,
      List.countP_congr signs]

/-! ## Checked fragments -/

namespace Checked

/-- Every rule gives the same answer to whether a fragment can be satisfied: its cost, someone who has
everything, the normal form of its policy, and the least number of signatures of that policy, before
and after it is brought into normal form. Its cost and its type agree on whether it can be
dissatisfied. -/
theorem satisfiable_agrees (m : Checked) {s : Satisfier} (obliging : s.Obliging) :
    (m.facts.cost.satOps.isSome = true ↔ m.fragment.canSatisfy s = true) ∧
      (m.fragment.policy.normalized.isUnsatisfiable = false ↔ m.fragment.canSatisfy s = true) ∧
      (∀ p ∈ [m.fragment.policy, m.fragment.policy.normalized],
        ∃ n, p.minimumKeys = .ok n ∧ (n.isSome = true ↔ m.fragment.canSatisfy s = true)) ∧
      (m.facts.cost.dissatOps.isSome = true ↔ m.facts.type.corr.dissatisfiable = true) := by
  have counted := Fragment.counted_policy m.typed
  have normal := Policy.isMet_normalized Condition.consistent_isSatisfiable counted
  have cost := Fragment.cost_of_facts? m.typed
  have wraps := m.fragment.wraps_cost
  rw [← Fragment.isMet_policy_of_leaves obliging.isMet_policy, cost]
  refine ⟨?_, ?_, ?_, ?_⟩
  · rw [wraps.sat.isSome_eq, Fragment.isSome_satOps m.typed]
  · rw [Policy.isUnsatisfiable_normalized counted, Bool.not_eq_false']
  · intro p among
    have counts : p.Counted ∧ p.isMet isSatisfiable = m.fragment.policy.isMet isSatisfiable := by
      rcases List.mem_pair.1 among with rfl | rfl
      · exact ⟨counted, rfl⟩
      · exact ⟨counted.normalized, normal⟩
    rcases Policy.exists_minimumKeys counts.1 with ⟨n, found, some⟩
    exact ⟨n, found, by rw [some, counts.2]⟩
  · rw [wraps.dissat.isSome_eq, Fragment.isSome_dissatOps m.typed]

/-- `thresh(2,c:pk(A),a:0,a:0)`, of which at most one part can be satisfied. -/
def outnumbered : Checked where
  fragment := .thresh 2 [.wrap .check (.leaf (.pk (.named [0x41]))), .wrap .alt (.leaf .zero),
    .wrap .alt (.leaf .zero)]
  facts := ⟨⟨⟨.B, .any, true, true⟩, ⟨.unique, true, true⟩⟩, ⟨.safe, 45, true, 8, none, some 8⟩⟩
  typed := by rfl

/-- Someone who has everything. -/
def everything : Satisfier where
  signature _ := some [7]
  keyForHash _ := some (.named [0x42])
  preimage _ _ := some []
  older _ := true
  after _ := true

theorem satisfiable_agrees_outnumbered :
    everything.Obliging ∧
      (recounted.fragment.canSatisfy everything = true ∧
        recounted.facts.cost.satOps.isSome = true ∧
        recounted.fragment.policy.normalized.isUnsatisfiable = false) ∧
      outnumbered.fragment.canSatisfy everything = false ∧
        outnumbered.fragment.policy.normalized.isUnsatisfiable = true ∧
        outnumbered.fragment.policy.minimumKeys = .ok none ∧
        outnumbered.facts.cost.dissatOps.isSome = true := by
  have obliging : everything.Obliging :=
    ⟨fun _ => rfl, fun _ => rfl, fun _ _ => rfl, fun _ => rfl, fun _ => rfl⟩
  rcases satisfiable_agrees recounted obliging with ⟨sat, normal, -, -⟩
  rcases satisfiable_agrees outnumbered obliging with ⟨-, normal', keys, dissat⟩
  have can : recounted.fragment.canSatisfy everything = true := by decide +kernel
  have cannot : outnumbered.fragment.canSatisfy everything = false := by decide +kernel
  rw [cannot] at normal'
  rcases keys _ List.mem_cons_self with ⟨n, found, none⟩
  rw [cannot] at none
  refine ⟨obliging, ⟨can, sat.2 can, normal.2 can⟩, cannot, ?_, ?_, dissat.2 rfl⟩
  · simpa using normal'
  · rw [found]
    simpa using none

end Checked

end LockScript
