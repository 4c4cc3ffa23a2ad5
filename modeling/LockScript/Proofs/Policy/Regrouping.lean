import LockScript.Proofs.Policy.Evaluation
import LockScript.Proofs.Decoder.Completeness
import LockScript.Policy.Lift

/-!
Normal forms do not see how conjunctions are nested.

A policy in normal form is read as the list of what it asks for all together (`conjuncts?`), where
the trivial policy asks for nothing and the unsatisfiable one has no list. The normal form of a
conjunction is the conjunction of the two lists one after the other (`normalized_both`), and lists
are put together in any order of brackets. So the policy that a fragment enforces has the same
normal form in every grouping of its sequences, and that of a script is the one it was written for.
-/

namespace LockScript

namespace Policy

/-! ## Conjunctions as lists -/

/-- What a policy in normal form asks for all together; none if it is never met. -/
def conjuncts? : Policy → Option (List Policy)
  | .leaf .unsatisfiable _ => none
  | .leaf .trivial _ => some []
  | .leaf c attached => some [.leaf c attached]
  | .threshold k branches =>
    if k = branches.length then some branches else some [.threshold k branches]

/-- The normal form of the policies all together. -/
def conjunction : Option (List Policy) → Policy
  | none => unsatisfiable
  | some ps => atLeast ps.length ps

/-- What both ask for. -/
def join (ps qs : Option (List Policy)) : Option (List Policy) := do return (← ps) ++ (← qs)

theorem join_assoc (ps qs rs : Option (List Policy)) :
    join (join ps qs) rs = join ps (join qs rs) := by
  cases ps <;> cases qs <;> cases rs <;> simp [join]

/-- Inside a conjunction a policy that is met gives way to its conjuncts, and takes the place of one
branch off their number; one that is never met is missing. -/
theorem merged_and (p : Policy) :
    merged true false p = match p.conjuncts? with
      | none => (0, [])
      | some ps => (ps.length - 1, ps) := by
  cases p with
  | leaf c attached => cases c <;> rfl
  | threshold k branches =>
    by_cases all : k = branches.length
    · simp [merged, conjuncts?, all]
    · simp [merged, conjuncts?, all]

theorem normalized_pair (p q : Policy) :
    (threshold 2 [p, q]).normalized
      = atLeast (2 + ((merged true false p.normalized).1 + (merged true false q.normalized).1))
        ((merged true false p.normalized).2 ++ (merged true false q.normalized).2) := by
  rw [← stillNeeded_of_nonneg (by decide)]
  simp [normalized, normalizedAll]

theorem normalized_both (p q : Policy) :
    (threshold 2 [p, q]).normalized
      = conjunction (join p.normalized.conjuncts? q.normalized.conjuncts?) := by
  rw [normalized_pair, merged_and, merged_and]
  -- A branch that is never met leaves one more to find than there are, else all that are left are
  -- needed.
  cases p.normalized.conjuncts? with
  | none =>
    cases q.normalized.conjuncts? with
    | none => rfl
    | some qs =>
      refine atLeast_of_lt ?_
      simp only [List.nil_append]
      omega
  | some ps =>
    cases q.normalized.conjuncts? with
    | none =>
      refine atLeast_of_lt ?_
      simp only [List.append_nil]
      omega
    | some qs =>
      have all : (2 : Int) + ((ps.length - 1 : Int) + (qs.length - 1 : Int))
          = (ps ++ qs).length := by
        rw [List.length_append]
        omega
      simp only [all]
      rfl

/-! ## Normal forms have no threshold over a single branch -/

/-- The policy is no threshold over a single branch. -/
def Forked (p : Policy) : Prop := ∀ k q, p ≠ .threshold k [q]

/-- The only branch left of a threshold over forked policies is forked. -/
theorem Forked.of_merged {isAnd isOr : Bool} {ps : List Policy} (each : ∀ p ∈ ps, p.Forked)
    {q : Policy} (alone : (ps.map (merged isAnd isOr)).flatMap (·.2) = [q]) : q.Forked := by
  have member : q ∈ (ps.map (merged isAnd isOr)).flatMap (·.2) := by
    rw [alone]
    exact List.mem_singleton_self q
  obtain ⟨part, among, inside⟩ := List.mem_flatMap.1 member
  have few : part.2.length ≤ 1 := by
    have sublist := List.sublist_flatten_of_mem (List.mem_map_of_mem (f := (·.2)) among)
    rw [← List.flatMap_def, alone] at sublist
    exact sublist.length_le
  obtain ⟨p, known, rfl⟩ := List.mem_map.1 among
  have forked := each p known
  cases p with
  | leaf c attached =>
    cases c with
    | trivial => cases inside
    | unsatisfiable => cases inside
    | _ =>
      rw [List.mem_singleton.1 inside]
      exact forked
  | threshold k branches =>
    have alone' (branch : q ∈ branches) (single : branches.length ≤ 1) : q.Forked := by
      match branches, branch, single with
      | [r], _, _ => exact (forked k r rfl).elim
    rw [merged] at inside few
    split at inside
    · next conjunction => exact alone' inside (by rwa [if_pos conjunction] at few)
    · next plain =>
      rw [if_neg plain] at few
      split at inside
      · next disjunction => exact alone' inside (by rwa [if_pos disjunction] at few)
      · rw [List.mem_singleton.1 inside]
        exact forked

theorem forked_normalized (p : Policy) : p.normalized.Forked := by
  induction p with
  | leaf c attached => exact fun k q same => by cases same
  | threshold k branches ih =>
    rw [normalized, normalizedAll_eq_map]
    unfold atLeast
    split
    · exact fun k q same => by cases same
    · split
      · exact fun k q same => by cases same
      · split
        · next q alone =>
          refine Forked.of_merged (fun n normal => ?_) alone
          obtain ⟨p, member, rfl⟩ := List.mem_map.1 normal
          exact ih p member
        · next several =>
          exact fun k' q same => several q (threshold.inj same).2

/-- A forked policy is its only conjunct, if it has only one. -/
theorem Forked.eq_of_conjuncts? {p q : Policy} (forked : p.Forked)
    (only : p.conjuncts? = some [q]) : p = q := by
  cases p with
  | leaf c attached => cases c <;> cases only <;> rfl
  | threshold k branches =>
    rw [conjuncts?] at only
    split at only
    · cases only
      exact (forked k q rfl).elim
    · cases only
      rfl

/-- The conjuncts of a conjunction of forked policies are those of its parts. -/
theorem conjuncts?_conjunction_join {p q : Policy} (forked : p.Forked) (forked' : q.Forked) :
    (conjunction (join p.conjuncts? q.conjuncts?)).conjuncts? = join p.conjuncts? q.conjuncts? := by
  have single {r : Policy} {ps qs : List Policy} (left : p.conjuncts? = some ps)
      (right : q.conjuncts? = some qs) (alone : ps ++ qs = [r]) : r.conjuncts? = some [r] := by
    rcases List.append_eq_singleton_iff.1 alone with ⟨-, rfl⟩ | ⟨rfl, -⟩
    · exact forked'.eq_of_conjuncts? right ▸ right
    · exact forked.eq_of_conjuncts? left ▸ left
  cases left : p.conjuncts? with
  | none => rfl
  | some ps =>
    cases right : q.conjuncts? with
    | none => rfl
    | some qs =>
      show (atLeast (ps ++ qs).length (ps ++ qs)).conjuncts? = some (ps ++ qs)
      have alone := fun r => single (r := r) left right
      generalize ps ++ qs = rs at alone
      match rs with
      | [] => rfl
      | [r] => exact alone r rfl
      | r :: r' :: rest =>
        have some : ¬ ((r :: r' :: rest).length : Int) ≤ 0 := by
          rw [List.length_cons]
          omega
        unfold atLeast
        rw [if_neg some, if_neg (Int.lt_irrefl _), conjuncts?, if_pos rfl]

theorem conjuncts?_both (p q : Policy) :
    (threshold 2 [p, q]).normalized.conjuncts?
      = join p.normalized.conjuncts? q.normalized.conjuncts? := by
  rw [normalized_both,
    conjuncts?_conjunction_join (forked_normalized p) (forked_normalized q)]

/-- The normal form of conjunctions does not depend on how they are nested. -/
theorem normalized_both_assoc (p q r : Policy) :
    (threshold 2 [threshold 2 [p, q], r]).normalized
      = (threshold 2 [p, threshold 2 [q, r]]).normalized := by
  rw [normalized_both _ r, normalized_both p (threshold 2 [q, r]), conjuncts?_both,
    conjuncts?_both, join_assoc]

/-- The normal form of a threshold depends only on those of its branches. -/
theorem normalized_threshold_congr (k : Int) {ps qs : List Policy}
    (same : ps.map normalized = qs.map normalized) :
    (threshold k ps).normalized = (threshold k qs).normalized := by
  have length : ps.length = qs.length := by
    have lengths := congrArg List.length same
    rwa [List.length_map, List.length_map] at lengths
  simp only [normalized, normalizedAll_eq_map, same, length]

theorem settled_congr {p q : Policy} (same : p.normalized = q.normalized) :
    p.settled = q.settled := by
  rw [settled, settled, same]

end Policy

/-- Regrouping does not change the normal form of the policy that a fragment enforces. -/
theorem Regrouped.normalized_policy {f g : Fragment} (regrouped : Regrouped f g) :
    g.policy.normalized = f.policy.normalized := by
  induction regrouped with
  | refl f => rfl
  | trans _ _ ih ih' => rw [ih', ih]
  | nest x y z => exact (Policy.normalized_both_assoc x.policy y.policy z.policy).symm
  | float _ x y => rfl
  | floatAndB x y z => exact (Policy.normalized_both_assoc x.policy y.policy z.policy).symm
  | wrap w _ ih => exact ih
  | pair op _ _ ih ih' =>
    apply Policy.normalized_threshold_congr
    simp only [List.map_cons, List.map_nil, ih, ih']
  | andor _ _ _ ih ih' ih'' =>
    apply Policy.normalized_threshold_congr
    simp only [List.map_cons, List.map_nil, Policy.normalized_both, ih, ih', ih'']
  | thresh k before after _ ih =>
    apply Policy.normalized_threshold_congr
    simp only [Fragment.policies_eq_map, List.map_append, List.map_cons, ih]

namespace Decoder

/-- A script tells the policy of the fragment it was written for. The fragment that the script
decodes to enforces a policy with the same normal form, and so either both have the same lifted
policy or both mix the units of lock times. -/
theorem decode_keeps_policy {s : Settings} (readsPoints : s.decodeKey = Key.ofBytes) {m : Checked}
    {b : Bytes} (base : m.type.corr.base ≠ .W)
    (few : ∀ k keys, .multi k keys ∈ m.fragment.leaves → keys.length ≤ maxMultiKeys)
    (written : m.fragment.script = .ok b) (room : 2 * (b.length : Int) ≤ s.limit) :
    ∃ m' : Checked, decode s b = .ok m' ∧
      m'.fragment.policy.normalized = m.fragment.policy.normalized ∧
      m'.fragment.lift = m.fragment.lift := by
  obtain ⟨m', decoded, -, regrouped⟩ := exists_decoded readsPoints base few written room
  have same := regrouped.normalized_policy
  exact ⟨m', decoded, same, Policy.settled_congr same⟩

theorem decode_keeps_policy_twoSequences :
    twoSequences.fragment.lift = .ok (.threshold 3
      [.leaf (.older 3) [], .leaf (.key (.point .generator)) [], .leaf (.after 2) []]) ∧
    ∃ m' : Checked, decode {} twoSequencesScript = .ok m' ∧
      m'.fragment.policy.normalized = twoSequences.fragment.policy.normalized ∧
      m'.fragment.lift = twoSequences.fragment.lift := by
  have few : ∀ k keys, .multi k keys ∈ twoSequences.fragment.leaves →
      keys.length ≤ maxMultiKeys := by
    simp [twoSequences, Fragment.leaves, maxMultiKeys]
  exact ⟨rfl, decode_keeps_policy rfl (by decide) few rfl (by decide)⟩

end Decoder

end LockScript
