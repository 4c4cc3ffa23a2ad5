import LockScript.Fragment.Sanity
import LockScript.Proofs.Decoder.Rules

/-!
The fragment to blame for malleability.

Whether a fragment is malleable is a flag of its type, and a fragment that is malleable is searched
for the first part that is malleable while none of its own parts are (`Fragment.culprit?_eq`).
Leaves are never malleable, and wrappers and conjunctions are so only if a part is. So what is found
is a choice or a threshold (`Fragment.isChoice_or_isThreshold`), and the search names what its rule
lacks: a branch that requires a signature, enough parts that do, or neither of these.
-/

namespace LockScript

/-- Whether one of the two parts is enough. -/
def Combinator.isDisjunction : Combinator → Bool
  | .andV => false
  | .andB => false
  | .orB => true
  | .orD => true
  | .orC => true
  | .orI => true

namespace Fragment

/-- Whether this is `or_b`, `or_d`, `or_c`, `or_i` or `andor`. -/
def isChoice : Fragment → Bool
  | .pair op _ _ => op.isDisjunction
  | .andor _ _ _ => true
  | _ => false

/-- Whether this is `thresh`. -/
def isThreshold : Fragment → Bool
  | .thresh _ _ => true
  | _ => false

/-! ## The flags of the types -/

theorem malleabilities_eq_map (subs : List Fragment) :
    malleabilities subs = subs.map malleability := by
  induction subs with
  | nil => rfl
  | cons x rest ih => rw [malleabilities, ih, List.map_cons]

/-- The malleability among the facts is the one that the fragment has without any checks. -/
theorem malleability_of_facts? {f : Fragment} {facts : Facts Int64} (typed : f.facts? = .ok facts) :
    facts.type.mall = f.malleability := by
  induction f generalizing facts with
  | leaf l =>
    obtain ⟨-, rfl, -⟩ := facts?_leaf_iff.1 typed
    rfl
  | wrap w x ih =>
    obtain ⟨fx, _, hx, -, rfl, -⟩ := facts?_wrap_iff.1 typed
    rw [malleability, ← ih hx]
  | pair op x y ihx ihy =>
    obtain ⟨fx, fy, _, hx, hy, -, rfl, -⟩ := facts?_pair_iff.1 typed
    rw [malleability, ← ihx hx, ← ihy hy]
  | andor x y z ihx ihy ihz =>
    obtain ⟨fx, fy, fz, _, hx, hy, hz, -, rfl, -⟩ := facts?_andor_iff.1 typed
    rw [malleability, ← ihx hx, ← ihy hy, ← ihz hz]
  | thresh k subs ih =>
    obtain ⟨fs, each, -, -, rfl, -⟩ := facts?_thresh_iff.1 typed
    have same : fs.map (fun fx => fx.type.mall) = subs.map malleability := by
      clear typed
      induction each with
      | nil => rfl
      | cons head _ tail =>
        rw [List.map_cons, List.map_cons, ih _ List.mem_cons_self head,
          tail fun x member => ih x (List.mem_cons_of_mem _ member)]
    rw [malleability, malleabilities_eq_map, ← same, each.length_eq]

/-! ## The search -/

theorem culpritOf?_eq_findSome? (subs : List Fragment) :
    culpritOf? subs = subs.findSome? culprit? := by
  induction subs with
  | nil => rfl
  | cons x rest ih =>
    rw [culpritOf?, ih, List.findSome?_cons]
    cases x.culprit? <;> rfl

/-- The search goes into the first part that is malleable, and stays if there is none. -/
theorem culprit?_eq (f : Fragment) :
    f.culprit? =
      if f.isNonMalleable then none else (f.children.findSome? culprit?).or (some f) := by
  rw [← culpritOf?_eq_findSome?]
  cases f <;> simp [culprit?, culpritOf?, children, Option.or_assoc]

theorem culprit?_eq_none_iff {f : Fragment} : f.culprit? = none ↔ f.isNonMalleable = true := by
  rw [culprit?_eq]
  cases f.isNonMalleable <;> simp

/-- One step of the search: on to a part of a malleable fragment, or no further as none of its parts
are malleable. -/
theorem culprit?_cases {f c : Fragment} (found : f.culprit? = some c) :
    f.isNonMalleable = false ∧ ((∃ x ∈ f.children, x.culprit? = some c) ∨
      c = f ∧ ∀ x ∈ f.children, x.isNonMalleable = true) := by
  rw [culprit?_eq] at found
  cases flag : f.isNonMalleable with
  | true =>
    rw [flag, if_pos rfl] at found
    cases found
  | false =>
    rw [flag, if_neg Bool.false_ne_true] at found
    refine ⟨rfl, ?_⟩
    cases deeper : f.children.findSome? culprit? with
    | some d =>
      rw [deeper] at found
      cases found
      exact .inl (List.exists_of_findSome?_eq_some deeper)
    | none =>
      rw [deeper] at found
      cases found
      refine .inr ⟨rfl, fun x child => ?_⟩
      exact culprit?_eq_none_iff.1 (List.findSome?_eq_none_iff.1 deeper x child)

/-- Where the search ends: at a malleable fragment inside the whole that has no malleable part. -/
structure Innermost (f c : Fragment) : Prop where
  inside : f.Contains c
  malleable : c.isNonMalleable = false
  parts : ∀ x ∈ c.children, x.isNonMalleable = true

theorem innermost_of_culprit? {f c : Fragment} (found : f.culprit? = some c) : f.Innermost c := by
  induction f using induction_on_children with
  | step f ih =>
    obtain ⟨flag, ⟨x, child, deeper⟩ | ⟨rfl, parts⟩⟩ := culprit?_cases found
    · obtain ⟨inside, malleable, parts⟩ := ih x child deeper
      exact ⟨.of_child child inside, malleable, parts⟩
    · exact ⟨.whole, flag, parts⟩

/-! ## What is malleable by itself -/

/-- Only a choice or a threshold is malleable without a malleable part. -/
theorem isChoice_or_isThreshold {c : Fragment} (malleable : c.isNonMalleable = false)
    (parts : ∀ x ∈ c.children, x.isNonMalleable = true) :
    c.isChoice = true ∨ c.isThreshold = true := by
  have whole : c.malleability.nonMalleable = false := malleable
  cases c with
  | leaf l => cases l <;> cases malleable
  | wrap w x =>
    have part : x.malleability.nonMalleable = true := parts x List.mem_cons_self
    cases w <;> simp [malleability, Malleability.wrap, Malleability.withDissat, part] at whole
  | pair op x y =>
    have left : x.malleability.nonMalleable = true := parts x (mem_children_pair.2 (.inl rfl))
    have right : y.malleability.nonMalleable = true := parts y (mem_children_pair.2 (.inr rfl))
    cases op with
    | andV => simp [malleability, Malleability.pair, left, right] at whole
    | andB => simp [malleability, Malleability.pair, left, right] at whole
    | _ => exact .inl rfl
  | andor x y z => exact .inl rfl
  | thresh k subs => exact .inr rfl

theorem malleableCause_of_isChoice {c : Fragment} (choice : c.isChoice = true) :
    c.malleableCause = if c.children.any isSafe then .malleable else .noStrongBranch := by
  cases c with
  | pair op x y =>
    cases op with
    | andV => cases choice
    | andB => cases choice
    | _ => rfl
  | andor x y z => rfl
  | _ => cases choice

theorem exists_eq_thresh {c : Fragment} (threshold : c.isThreshold = true) :
    ∃ k subs, c = .thresh k subs := by
  cases c with
  | thresh k subs => exact ⟨k, subs, rfl⟩
  | _ => cases threshold

end Fragment

/-! ## Checked fragments -/

namespace Checked

theorem isNonMalleable_fragment (m : Checked) :
    m.fragment.isNonMalleable = m.type.mall.nonMalleable := by
  rw [Fragment.isNonMalleable, ← Fragment.malleability_of_facts? m.typed]
  rfl

theorem isSafe_fragment (m : Checked) : m.fragment.isSafe = m.type.mall.safe := by
  rw [Fragment.isSafe, ← Fragment.malleability_of_facts? m.typed]
  rfl

/-- The number of fragments of which every satisfaction requires a signature, by their types. -/
def countSafe (parts : List Checked) : Int := parts.countP fun x => x.type.mall.safe

/-- A choice with these parts, none of which requires a signature. -/
def LacksStrongBranch (c : Checked) (parts : List Checked) : Prop :=
  c.fragment.isChoice = true ∧ ∀ x ∈ parts, x.type.mall.safe = false

/-- A threshold over these parts, of which more can be left out than require a signature. -/
def LacksStrongParts (c : Checked) (parts : List Checked) : Prop :=
  ∃ k, c.fragment = .thresh k (parts.map fragment) ∧ countSafe parts < parts.length - k

/-- What a cause says of a fragment with its parts. -/
structure Explains (cause : Sanity.Cause) (c : Checked) (parts : List Checked) : Prop where
  noStrongBranch : cause = .noStrongBranch ↔ c.LacksStrongBranch parts
  weakThreshold : (∃ safe total needed, cause = .weakThreshold safe total needed) ↔
    c.LacksStrongParts parts
  otherwise : cause = .malleable ↔ ¬ c.LacksStrongBranch parts ∧ ¬ c.LacksStrongParts parts
  counts (safe total needed : Int) : cause = .weakThreshold safe total needed →
    safe = countSafe parts ∧ total = parts.length ∧
      c.fragment = .thresh (total - needed) (parts.map fragment)

/-- An error that names a malleable choice or threshold without malleable parts, and its lack. -/
structure Blames (e : Sanity.Error) (c : Checked) (parts : List Checked) : Prop where
  fragment : e.fragment = c.fragment
  children : c.fragment.children = parts.map Checked.fragment
  malleable : c.type.mall.nonMalleable = false
  nonMalleable : ∀ x ∈ parts, x.type.mall.nonMalleable = true
  form : c.fragment.isChoice = true ∨ c.fragment.isThreshold = true
  explains : Explains e.cause c parts

section Causes

variable {c : Checked} {parts : List Checked}

theorem any_isSafe_iff :
    (parts.map fragment).any Fragment.isSafe = true ↔ ¬ ∀ x ∈ parts, x.type.mall.safe = false := by
  simp [isSafe_fragment]

theorem countP_isSafe (parts : List Checked) :
    ((parts.map fragment).countP Fragment.isSafe : Int) = countSafe parts := by
  rw [List.countP_map, countSafe]
  simp only [Function.comp_def, isSafe_fragment]

theorem explains_choice (children : c.fragment.children = parts.map fragment)
    (choice : c.fragment.isChoice = true) : Explains c.fragment.malleableCause c parts := by
  have noThreshold : ¬ c.LacksStrongParts parts := by
    rintro ⟨k, same, -⟩
    rw [same] at choice
    cases choice
  rw [Fragment.malleableCause_of_isChoice choice, children]
  by_cases weak : ∀ x ∈ parts, x.type.mall.safe = false
  · have lacks : c.LacksStrongBranch parts := ⟨choice, weak⟩
    rw [if_neg fun any => any_isSafe_iff.1 any weak]
    exact ⟨by simp [lacks], by simp [noThreshold], by simp [lacks], nofun⟩
  · have strong : ¬ c.LacksStrongBranch parts := fun lacks => weak lacks.2
    rw [if_pos (any_isSafe_iff.2 weak)]
    exact ⟨by simp [strong], by simp [noThreshold], by simp [strong, noThreshold], nofun⟩

theorem explains_threshold {k : Int} (same : c.fragment = .thresh k (parts.map fragment)) :
    Explains c.fragment.malleableCause c parts := by
  have noChoice : ¬ c.LacksStrongBranch parts := by
    rintro ⟨choice, -⟩
    rw [same] at choice
    cases choice
  have cause : c.fragment.malleableCause = if countSafe parts < parts.length - k
      then .weakThreshold (countSafe parts) parts.length (parts.length - k) else .malleable := by
    rw [same, Fragment.malleableCause, countP_isSafe, List.length_map]
  rw [cause]
  by_cases few : countSafe parts < parts.length - k
  · have lacks : c.LacksStrongParts parts := ⟨k, same, few⟩
    rw [if_pos few]
    refine ⟨by simp [noChoice], by simp [lacks], by simp [lacks], ?_⟩
    rintro safe total needed ⟨⟩
    refine ⟨rfl, rfl, ?_⟩
    rw [same, Int.sub_sub_self]
  · have enough : ¬ c.LacksStrongParts parts := by
      rintro ⟨k', same', few'⟩
      cases same.symm.trans same'
      exact few few'
    rw [if_neg few]
    exact ⟨by simp [noChoice], by simp [enough], by simp [noChoice, enough], nofun⟩

/-- The cause that is given for a choice or a threshold is the right one. -/
theorem explains_malleableCause (children : c.fragment.children = parts.map fragment)
    (form : c.fragment.isChoice = true ∨ c.fragment.isThreshold = true) :
    Explains c.fragment.malleableCause c parts := by
  rcases form with choice | threshold
  · exact explains_choice children choice
  · obtain ⟨k, subs, same⟩ := Fragment.exists_eq_thresh threshold
    rw [same, Fragment.children] at children
    rw [children] at same
    exact explains_threshold same

end Causes

theorem exists_parts_of_children (c : Checked) :
    ∃ parts : List Checked, c.fragment.children = parts.map fragment := by
  have each : ∀ x ∈ c.fragment.children, ∃ p : Checked, p.fragment = x ∧ True := by
    intro x child
    obtain ⟨facts, typed⟩ := Fragment.exists_facts?_of_child c.typed child
    exact ⟨⟨x, facts, typed⟩, rfl, trivial⟩
  obtain ⟨parts, same, -⟩ := Fragment.exists_parts each
  exact ⟨parts, same.symm⟩

/-- A malleable fragment in which the search ends is blamed for what it lacks. -/
theorem exists_blames {m : Checked} {f : Fragment} (innermost : m.fragment.Innermost f) :
    ∃ c parts, m.fragment.Contains c.fragment ∧ Blames ⟨f, f.malleableCause⟩ c parts := by
  obtain ⟨facts, typed⟩ := innermost.inside.exists_facts? m.typed
  obtain ⟨parts, children⟩ := exists_parts_of_children ⟨f, facts, typed⟩
  have form := Fragment.isChoice_or_isThreshold innermost.malleable innermost.parts
  refine ⟨⟨f, facts, typed⟩, parts, innermost.inside, rfl, children, ?_, ?_, form,
    explains_malleableCause children form⟩
  · rw [← isNonMalleable_fragment]
    exact innermost.malleable
  · intro x member
    rw [← isNonMalleable_fragment]
    apply innermost.parts
    rw [children]
    exact List.mem_map_of_mem member

/-- A fragment is accepted just if it is non-malleable. Otherwise the error names a malleable part
of it, or the fragment itself, all of whose parts are non-malleable. This is a choice or a
threshold, and the error says whether it lacks a branch or enough parts that require a signature. -/
theorem checkNonMalleable_pinpoints (m : Checked) :
    (m.fragment.checkNonMalleable = .ok () ↔ m.type.mall.nonMalleable = true) ∧
    ∀ e, m.fragment.checkNonMalleable = .error e →
      ∃ c parts, m.fragment.Contains c.fragment ∧ Blames e c parts := by
  rw [← isNonMalleable_fragment, ← Fragment.culprit?_eq_none_iff, Fragment.checkNonMalleable]
  cases found : m.fragment.culprit? with
  | none => exact ⟨by simp, nofun⟩
  | some f =>
    refine ⟨by simp, fun e named => ?_⟩
    cases named
    exact exists_blames (Fragment.innermost_of_culprit? found)

/-- `and_v(v:or_i(older(1),older(2)),c:pk(A))`. -/
def hurried : Checked where
  fragment := .pair .andV (.wrap .verify (.pair .orI (.leaf (.older 1)) (.leaf (.older 2))))
    (.wrap .check (.leaf (.pk (.named [0x41]))))
  facts := ⟨⟨⟨.B, .any, false, true⟩, ⟨.unknown, true, false⟩⟩,
    ⟨.segwitOnly, 43, true, 7, some 7, none⟩⟩
  typed := by rfl

/-- The choice inside is blamed, as neither of its branches requires a signature. -/
theorem checkNonMalleable_pinpoints_hurried :
    ∃ e, hurried.fragment.checkNonMalleable = .error e ∧
      e.fragment = .pair .orI (.leaf (.older 1)) (.leaf (.older 2)) ∧
      ∃ c parts, hurried.fragment.Contains c.fragment ∧ Blames e c parts ∧
        c.LacksStrongBranch parts := by
  have failed : hurried.fragment.checkNonMalleable
      = .error ⟨.pair .orI (.leaf (.older 1)) (.leaf (.older 2)), .noStrongBranch⟩ := rfl
  obtain ⟨c, parts, inside, blames⟩ := hurried.checkNonMalleable_pinpoints.2 _ failed
  exact ⟨_, failed, rfl, c, parts, inside, blames, blames.explains.noStrongBranch.1 rfl⟩

end Checked

end LockScript
