import LockScript.Fragment.Checked
import Mathlib.Data.List.Forall2

/-!
What a fragment with facts is made of.

The facts of a composition are computed from those of its parts and then held against the invariants
of the types. The statements here take that computation apart again, one for each form of fragment:
the parts have facts of their own, the rule of the form accepts them, and the result is `Sound`.
-/

namespace LockScript

/-- A computation of two steps succeeds if both do. -/
theorem bind_eq_ok_iff {ε α β : Type} {x : Except ε α} {f : α → Except ε β} {b : β} :
    (x >>= f) = .ok b ↔ ∃ a, x = .ok a ∧ f a = .ok b := by
  cases x <;> simp [bind, Except.bind]

theorem map_eq_ok_iff {ε α β : Type} {x : Except ε α} {f : α → β} {b : β} :
    x.map f = .ok b ↔ ∃ a, x = .ok a ∧ f a = b := by
  cases x <;> simp [Except.map]

/-! ## Facts that hold together -/

variable {ν : Type} [Counting ν]

/-- Facts that break no invariant. -/
structure Facts.Sound (facts : Facts ν) : Prop where
  corr : facts.type.corr.violation? = none
  cost : facts.cost.violation? = none
  type : facts.type.violation? = none

/-- Facts are made of exactly the three parts given, if these hold together. -/
theorem Facts.ofParts_eq_ok_iff {corr : Correctness} {mall : Malleability} {cost : Cost ν}
    {facts : Facts ν} :
    Facts.ofParts corr mall cost = .ok facts ↔ facts = ⟨⟨corr, mall⟩, cost⟩ ∧ facts.Sound := by
  unfold Facts.ofParts
  constructor
  · intro made
    split at made
    · cases made
    · cases made
    · cases made
    · next noCorr noCost noType =>
      cases made
      exact ⟨rfl, noCorr, noCost, noType⟩
  · rintro ⟨rfl, sound⟩
    rw [sound.corr, sound.cost, sound.type]

theorem Facts.ofChecked_eq_ok_iff {corr : Except Mistype Correctness} {mall : Malleability}
    {cost : Cost ν} {facts : Facts ν} :
    Facts.ofChecked corr mall cost = .ok facts ↔
      ∃ c, corr = .ok c ∧ facts = ⟨⟨c, mall⟩, cost⟩ ∧ facts.Sound := by
  cases corr with
  | error m => simp [Facts.ofChecked]
  | ok c => simp [Facts.ofChecked, Facts.ofParts_eq_ok_iff]

theorem Facts.checkThreshold_iff {k n : Int} :
    Facts.checkThreshold k n = .ok () ↔ 1 ≤ k ∧ k ≤ n := by
  unfold Facts.checkThreshold
  constructor
  · intro checked
    split at checked
    · cases checked
    · split at checked
      · cases checked
      · omega
  · intro range
    rw [if_neg (by omega), if_neg (by omega)]

/-! ## The rules of correctness types -/

namespace Correctness

section Wrappers

variable {c d : Correctness}

theorem wrap_alt_iff :
    wrap .alt c = .ok d ↔ c.base = .B ∧ d = ⟨.W, .any, c.dissatisfiable, c.unit⟩ := by
  grind [wrap]

theorem wrap_swap_iff :
    wrap .swap c = .ok d ↔ c.base = .B ∧ c.input.isSubtype .one = true ∧
      d = ⟨.W, .any, c.dissatisfiable, c.unit⟩ := by
  grind [wrap]

theorem wrap_check_iff :
    wrap .check c = .ok d ↔ c.base = .K ∧ d = ⟨.B, c.input, c.dissatisfiable, true⟩ := by
  grind [wrap]

theorem wrap_dupIf_iff :
    wrap .dupIf c = .ok d ↔ c.base = .V ∧ c.input = .zero ∧ d = ⟨.B, .oneNonZero, true, false⟩ := by
  grind [wrap]

theorem wrap_verify_iff :
    wrap .verify c = .ok d ↔ c.base = .B ∧ d = ⟨.V, c.input, false, false⟩ := by
  grind [wrap]

theorem wrap_nonZero_iff :
    wrap .nonZero c = .ok d ↔ c.base = .B ∧ (c.input = .oneNonZero ∨ c.input = .anyNonZero) ∧
      d = ⟨.B, c.input, true, c.unit⟩ := by
  grind [wrap]

theorem wrap_zeroNotEqual_iff :
    wrap .zeroNotEqual c = .ok d ↔ c.base = .B ∧ d = ⟨.B, c.input, c.dissatisfiable, true⟩ := by
  grind [wrap]

end Wrappers

section Combinations

variable {l r c : Correctness}

theorem pair_andV_iff :
    pair .andV l r = .ok c ↔ l.base = .V ∧ r.base ≠ .W ∧
      c = ⟨r.base, l.input.andThen r.input, false, r.unit⟩ := by
  grind [pair]

theorem pair_andB_iff :
    pair .andB l r = .ok c ↔ l.base = .B ∧ r.base = .W ∧
      c = ⟨.B, l.input.andThen r.input, l.dissatisfiable && r.dissatisfiable, true⟩ := by
  grind [pair]

theorem pair_orB_iff :
    pair .orB l r = .ok c ↔ l.base = .B ∧ r.base = .W ∧ l.dissatisfiable = true ∧
      r.dissatisfiable = true ∧ c = ⟨.B, l.input.both r.input, true, true⟩ := by
  grind [pair]

theorem pair_orD_iff :
    pair .orD l r = .ok c ↔ l.base = .B ∧ r.base = .B ∧ l.dissatisfiable = true ∧ l.unit = true ∧
      c = ⟨.B, l.input.orElse r.input, r.dissatisfiable, r.unit⟩ := by
  grind [pair, checkLeft]

theorem pair_orC_iff :
    pair .orC l r = .ok c ↔ l.base = .B ∧ r.base = .V ∧ l.dissatisfiable = true ∧ l.unit = true ∧
      c = ⟨.V, l.input.orElse r.input, false, false⟩ := by
  grind [pair, checkLeft]

theorem pair_orI_iff :
    pair .orI l r = .ok c ↔ l.base = r.base ∧ l.base ≠ .W ∧
      c = ⟨l.base, if l.input = .zero ∧ r.input = .zero then .one else .any,
        l.dissatisfiable || r.dissatisfiable, l.unit && r.unit⟩ := by
  grind [pair]

theorem andor_iff {x y z : Correctness} :
    andor x y z = .ok c ↔ x.base = .B ∧ y.base = z.base ∧ y.base ≠ .W ∧ x.dissatisfiable = true ∧
      x.unit = true ∧
      c = ⟨y.base, x.input.branch y.input z.input, z.dissatisfiable, y.unit && z.unit⟩ := by
  grind [andor, checkLeft]

theorem checkSub_iff (index : Nat) :
    c.checkSub index = .ok () ↔ c.base = (if index = 0 then .B else .W) ∧ c.unit = true ∧
      c.dissatisfiable = true := by
  grind [checkSub]

end Combinations

/-- After the first, every part of a threshold is a W. -/
theorem checkSubs_succ_iff (index : Nat) {cs : List Correctness} :
    checkSubs (index + 1) cs = .ok () ↔
      ∀ c ∈ cs, c.base = .W ∧ c.unit = true ∧ c.dissatisfiable = true := by
  induction cs generalizing index with
  | nil => simp [checkSubs]
  | cons c rest ih =>
    have first := checkSub_iff (c := c) (index + 1)
    rw [if_neg (Nat.succ_ne_zero index)] at first
    rw [List.forall_mem_cons, ← first, ← ih (index + 1), checkSubs]
    cases c.checkSub (index + 1) <;> simp

theorem checkSubs_zero_cons_iff {c : Correctness} {rest : List Correctness} :
    checkSubs 0 (c :: rest) = .ok () ↔
      (c.base = .B ∧ c.unit = true ∧ c.dissatisfiable = true) ∧
        ∀ d ∈ rest, d.base = .W ∧ d.unit = true ∧ d.dissatisfiable = true := by
  have first := checkSub_iff (c := c) 0
  rw [if_pos rfl] at first
  rw [← first, ← checkSubs_succ_iff 0, checkSubs]
  cases c.checkSub 0 <;> simp

end Correctness

/-! ## One form at a time -/

namespace Fragment

theorem mem_children_pair {op : Combinator} {x y z : Fragment} :
    x ∈ (pair op y z).children ↔ x = y ∨ x = z := by
  simp [children]

theorem mem_children_andor {x y z t : Fragment} :
    x ∈ (andor y z t).children ↔ x = y ∨ x = z ∨ x = t := by
  simp [children]

omit [Counting ν] in
theorem blame_eq_ok_iff {f : Fragment} {found : Except Refusal (Facts ν)} {facts : Facts ν} :
    f.blame found = .ok facts ↔ found = .ok facts := by
  cases found <;> simp [blame]

variable [Add ν] [Sub ν]

theorem facts?_leaf_iff {l : Leaf} {facts : Facts ν} :
    (Fragment.leaf l).facts? = .ok facts ↔
      Facts.checkLeaf l = .ok () ∧ facts = ⟨⟨.ofLeaf l, .ofLeaf l⟩, .ofExact (.ofLeaf l)⟩ ∧
        facts.Sound := by
  rw [facts?, blame_eq_ok_iff, Facts.leaf, Facts.ofChecked_eq_ok_iff]
  cases Facts.checkLeaf l <;> simp [Except.map]

theorem facts?_wrap_iff {w : Wrapper} {x : Fragment} {facts : Facts ν} :
    (Fragment.wrap w x).facts? = .ok facts ↔
      ∃ fx c, x.facts? = .ok fx ∧ Correctness.wrap w fx.type.corr = .ok c ∧
        facts = ⟨⟨c, .wrap w fx.type.mall⟩, .wrap w fx.cost⟩ ∧ facts.Sound := by
  rw [facts?]
  cases (x.facts? : Except TypeError (Facts ν)) with
  | error e => simp
  | ok fx => simp [blame_eq_ok_iff, Facts.wrap, Facts.ofChecked_eq_ok_iff]

theorem facts?_pair_iff {op : Combinator} {x y : Fragment} {facts : Facts ν} :
    (Fragment.pair op x y).facts? = .ok facts ↔
      ∃ fx fy c, x.facts? = .ok fx ∧ y.facts? = .ok fy ∧
        Correctness.pair op fx.type.corr fy.type.corr = .ok c ∧
        facts = ⟨⟨c, .pair op fx.type.mall fy.type.mall⟩, .pair op fx.cost fy.cost⟩ ∧
        facts.Sound := by
  rw [facts?]
  cases (x.facts? : Except TypeError (Facts ν)) with
  | error e => simp
  | ok fx =>
    cases (y.facts? : Except TypeError (Facts ν)) with
    | error e => simp
    | ok fy => simp [blame_eq_ok_iff, Facts.pair, Facts.ofChecked_eq_ok_iff]

theorem facts?_andor_iff {x y z : Fragment} {facts : Facts ν} :
    (Fragment.andor x y z).facts? = .ok facts ↔
      ∃ fx fy fz c, x.facts? = .ok fx ∧ y.facts? = .ok fy ∧ z.facts? = .ok fz ∧
        Correctness.andor fx.type.corr fy.type.corr fz.type.corr = .ok c ∧
        facts = ⟨⟨c, .andor fx.type.mall fy.type.mall fz.type.mall⟩,
          .andor fx.cost fy.cost fz.cost⟩ ∧ facts.Sound := by
  rw [facts?]
  cases (x.facts? : Except TypeError (Facts ν)) with
  | error e => simp
  | ok fx =>
    cases (y.facts? : Except TypeError (Facts ν)) with
    | error e => simp
    | ok fy =>
      cases (z.facts? : Except TypeError (Facts ν)) with
      | error e => simp
      | ok fz => simp [blame_eq_ok_iff, Facts.andor, Facts.ofChecked_eq_ok_iff]

/-- Fragments have facts together if each has its own. -/
theorem factsOf?_eq_ok_iff {subs : List Fragment} {fs : List (Facts ν)} :
    factsOf? subs = .ok fs ↔ List.Forall₂ (fun x fx => x.facts? = .ok fx) subs fs := by
  induction subs generalizing fs with
  | nil => cases fs <;> simp [factsOf?]
  | cons x rest ih =>
    rw [factsOf?, List.forall₂_cons_left_iff]
    cases (x.facts? : Except TypeError (Facts ν)) with
    | error e => simp
    | ok fx =>
      cases others : (factsOf? rest : Except TypeError (List (Facts ν))) with
      | error e =>
        simp only [reduceCtorEq, false_iff, not_exists, not_and]
        intro fy ys same each
        rw [ih.2 each] at others
        cases others
      | ok gs =>
        constructor
        · rintro ⟨⟩
          exact ⟨fx, gs, rfl, ih.1 others, rfl⟩
        · rintro ⟨fy, ys, same, each, rfl⟩
          have tail := ih.2 each
          rw [others] at tail
          cases same
          cases tail
          rfl

theorem exists_facts?_of_mem {subs : List Fragment} {fs : List (Facts ν)} {x : Fragment}
    (each : List.Forall₂ (fun x fx => x.facts? = .ok fx) subs fs) (member : x ∈ subs) :
    ∃ fx ∈ fs, x.facts? = .ok fx := by
  induction each with
  | nil => cases member
  | cons head tail ih =>
    rcases List.mem_cons.1 member with rfl | later
    · exact ⟨_, List.mem_cons_self, head⟩
    · obtain ⟨fx, inside, typed⟩ := ih later
      exact ⟨fx, List.mem_cons_of_mem _ inside, typed⟩

theorem facts?_thresh_iff {k : Int} {subs : List Fragment} {facts : Facts ν} :
    (Fragment.thresh k subs).facts? = .ok facts ↔
      ∃ fs, List.Forall₂ (fun x fx => x.facts? = .ok fx) subs fs ∧
        Facts.checkThreshold k fs.length = .ok () ∧
        Correctness.checkSubs 0 (fs.map fun x => x.type.corr) = .ok () ∧
        facts = ⟨⟨.ofSubs (fs.map fun x => x.type.corr),
            .threshold k (fs.length : Int) (fs.map fun x => x.type.mall)⟩,
          .threshold k (Counting.ofInt fs.length) (fs.map Facts.cost)⟩ ∧ facts.Sound := by
  simp only [← factsOf?_eq_ok_iff]
  rw [facts?]
  cases (factsOf? subs : Except TypeError (List (Facts ν))) with
  | error e => simp
  | ok fs =>
    simp only [blame_eq_ok_iff, Facts.threshold, Except.ok.injEq, exists_eq_left']
    cases Facts.checkThreshold k fs.length with
    | error e => simp
    | ok u =>
      cases Correctness.checkSubs 0 (fs.map fun x => x.type.corr) with
      | error e => simp
      | ok u => simp [Facts.ofSubs, Facts.ofParts_eq_ok_iff]

/-- What has facts has sound ones. -/
theorem sound_of_facts? {f : Fragment} {facts : Facts ν} (typed : f.facts? = .ok facts) :
    facts.Sound := by
  cases f with
  | leaf l => exact (facts?_leaf_iff.1 typed).2.2
  | wrap w x =>
    obtain ⟨_, _, _, _, _, sound⟩ := facts?_wrap_iff.1 typed
    exact sound
  | pair op x y =>
    obtain ⟨_, _, _, _, _, _, _, sound⟩ := facts?_pair_iff.1 typed
    exact sound
  | andor x y z =>
    obtain ⟨_, _, _, _, _, _, _, _, _, sound⟩ := facts?_andor_iff.1 typed
    exact sound
  | thresh k subs =>
    obtain ⟨_, _, _, _, _, sound⟩ := facts?_thresh_iff.1 typed
    exact sound

theorem costs_eq_map (subs : List Fragment) : costs ν subs = subs.map (cost ν) := by
  induction subs with
  | nil => rfl
  | cons x rest ih => rw [costs, ih, List.map_cons]

/-- The cost among the facts is the one that the fragment has without any checks. -/
theorem cost_of_facts? {f : Fragment} {facts : Facts ν} (typed : f.facts? = .ok facts) :
    facts.cost = f.cost ν := by
  induction f generalizing facts with
  | leaf l =>
    obtain ⟨-, rfl, -⟩ := facts?_leaf_iff.1 typed
    rfl
  | wrap w x ih =>
    obtain ⟨fx, _, hx, -, rfl, -⟩ := facts?_wrap_iff.1 typed
    rw [cost, ← ih hx]
  | pair op x y ihx ihy =>
    obtain ⟨fx, fy, _, hx, hy, -, rfl, -⟩ := facts?_pair_iff.1 typed
    rw [cost, ← ihx hx, ← ihy hy]
  | andor x y z ihx ihy ihz =>
    obtain ⟨fx, fy, fz, _, hx, hy, hz, -, rfl, -⟩ := facts?_andor_iff.1 typed
    rw [cost, ← ihx hx, ← ihy hy, ← ihz hz]
  | thresh k subs ih =>
    obtain ⟨fs, each, -, -, rfl, -⟩ := facts?_thresh_iff.1 typed
    have same : fs.map Facts.cost = subs.map (cost ν) := by
      clear typed
      induction each with
      | nil => rfl
      | cons head _ tail =>
        rw [List.map_cons, List.map_cons, ih _ List.mem_cons_self head,
          tail fun x member => ih x (List.mem_cons_of_mem _ member)]
    rw [cost, costs_eq_map, ← same, each.length_eq]

end Fragment

/-! ## Checked fragments -/

namespace Checked

/-- What is accepted is the fragment itself, within the limit. -/
theorem accept_eq_ok_iff {limit : Int} {f : Fragment} {found : Except Refusal (Facts Int64)}
    {agrees : f.facts? = f.blame found} {m : Checked} :
    accept limit f found agrees = .ok m ↔ (f.depth : Int) ≤ limit ∧ m.fragment = f := by
  unfold accept
  constructor
  · intro accepted
    split at accepted
    · cases accepted
    · next shallow =>
      split at accepted
      · cases accepted
        exact ⟨Int.not_lt.1 shallow, rfl⟩
      · cases accepted
  · rintro ⟨shallow, rfl⟩
    rw [if_neg (Int.not_lt.2 shallow)]
    split
    · exact congrArg Except.ok (eq_of_fragment_eq rfl)
    · next refused =>
      have typed := m.typed
      rw [refused] at typed
      cases typed

variable {limit : Int} {m : Checked}

theorem leaf_eq_ok_iff {l : Leaf} :
    leaf limit l = .ok m ↔ ((Fragment.leaf l).depth : Int) ≤ limit ∧ m.fragment = .leaf l :=
  accept_eq_ok_iff

theorem wrap_eq_ok_iff {w : Wrapper} {x : Checked} :
    wrap limit w x = .ok m ↔ ((Fragment.wrap w x.fragment).depth : Int) ≤ limit ∧
      m.fragment = .wrap w x.fragment :=
  accept_eq_ok_iff

theorem pair_eq_ok_iff {op : Combinator} {x y : Checked} :
    pair limit op x y = .ok m ↔ ((Fragment.pair op x.fragment y.fragment).depth : Int) ≤ limit ∧
      m.fragment = .pair op x.fragment y.fragment :=
  accept_eq_ok_iff

theorem andor_eq_ok_iff {x y z : Checked} :
    andor limit x y z = .ok m ↔
      ((Fragment.andor x.fragment y.fragment z.fragment).depth : Int) ≤ limit ∧
      m.fragment = .andor x.fragment y.fragment z.fragment :=
  accept_eq_ok_iff

theorem thresh_eq_ok_iff {k : Int} {subs : List Checked} :
    thresh limit k subs = .ok m ↔
      ((Fragment.thresh k (subs.map fragment)).depth : Int) ≤ limit ∧
      m.fragment = .thresh k (subs.map fragment) :=
  accept_eq_ok_iff

end Checked

end LockScript
