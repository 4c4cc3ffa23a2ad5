import LockScript.Proofs.Script.Words
import LockScript.Proofs.Typing.Wrapping

/-!
Fragments that differ in how their sequences are grouped.

`and_v(X,Y)` is X followed by Y, and nothing in a script says where such a sequence was opened: it
may be nested to either side, and what is written after it, by `c:`, `v:` or `n:` or by the second
part of an `and_b`, may be written after Y as well. `Regrouped` moves sequences out and to the
right. It changes neither the script (`Regrouped.words_eq`) nor the facts, as long as the operations
are a word (`Regrouped.facts?`).
-/

namespace LockScript

/-- Wrappers that only stand after what they wrap. -/
def Wrapper.Trails (w : Wrapper) : Prop := w = .check ∨ w = .verify ∨ w = .zeroNotEqual

/-- The second fragment is the first with sequences nested to the right and moved out of `c:`, `v:`,
`n:` and the first part of `and_b`, anywhere in it. -/
inductive Regrouped : Fragment → Fragment → Prop
  | refl (f : Fragment) : Regrouped f f
  | trans {f g h : Fragment} : Regrouped f g → Regrouped g h → Regrouped f h
  | nest (x y z : Fragment) :
    Regrouped (.pair .andV (.pair .andV x y) z) (.pair .andV x (.pair .andV y z))
  | float {w : Wrapper} (trails : w.Trails) (x y : Fragment) :
    Regrouped (.wrap w (.pair .andV x y)) (.pair .andV x (.wrap w y))
  | floatAndB (x y z : Fragment) :
    Regrouped (.pair .andB (.pair .andV x y) z) (.pair .andV x (.pair .andB y z))
  | wrap (w : Wrapper) {x x' : Fragment} : Regrouped x x' → Regrouped (.wrap w x) (.wrap w x')
  | pair (op : Combinator) {x x' y y' : Fragment} :
    Regrouped x x' → Regrouped y y' → Regrouped (.pair op x y) (.pair op x' y')
  | andor {x x' y y' z z' : Fragment} :
    Regrouped x x' → Regrouped y y' → Regrouped z z' → Regrouped (.andor x y z) (.andor x' y' z')
  | thresh (k : Int) (before after : List Fragment) {x x' : Fragment} :
    Regrouped x x' →
      Regrouped (.thresh k (before ++ x :: after)) (.thresh k (before ++ x' :: after))

/-! ## Types and costs of sequences -/

theorem Input.andThen_assoc (a b c : Input) :
    (a.andThen b).andThen c = a.andThen (b.andThen c) := by
  cases a <;> cases b <;> cases c <;> rfl

namespace Malleability

variable {x y z : Malleability}

/-- After a part that cannot be dissatisfied, a sequence can be dissatisfied only if the rest can be
and no signature is needed before. -/
theorem andDissat_of_none (none : x.dissat = .none) :
    andDissat x y = if y.dissat = .none ∨ x.safe = true then .none else .unknown := by
  grind [andDissat]

theorem andV_assoc (hx : x.dissat = .none) (hy : y.dissat = .none) :
    pair .andV (pair .andV x y) z = pair .andV x (pair .andV y z) := by
  simp only [pair, andDissat_of_none hx, andDissat_of_none hy]
  grind [andDissat]

theorem wrap_andV {w : Wrapper} (trails : w.Trails) (hx : x.dissat = .none) :
    wrap w (pair .andV x y) = pair .andV x (wrap w y) := by
  rcases trails with rfl | rfl | rfl <;> simp [wrap, pair, andDissat_of_none hx]

theorem andB_andV (hx : x.dissat = .none) :
    pair .andB (pair .andV x y) z = pair .andV x (pair .andB y z) := by
  simp only [pair, andDissat_of_none hx]
  grind [andDissat]

end Malleability

namespace Cost

theorem legacy_both_assoc (a b c : Legacy) : (a.both b).both c = a.both (b.both c) := by
  grind [Legacy.both]

theorem opCount_plus_and (a b : OpCount Int) (n : Int) :
    OpCount.plus (OpCount.and a b) n = OpCount.and a (OpCount.plus b n) :=
  OpCount.and_assoc a b (some n)

theorem none_plus (n : Int) : OpCount.plus none n = none := rfl

theorem andV_assoc (x y z : Cost Int) :
    pair .andV (pair .andV x y) z = pair .andV x (pair .andV y z) := by
  simp [pair, inRow, legacy_both_assoc, OpCount.and_assoc, Int.add_assoc]

theorem wrap_andV {w : Wrapper} (trails : w.Trails) (x y : Cost Int) :
    wrap w (pair .andV x y) = pair .andV x (wrap w y) := by
  cases form : y.verifyForm <;> rcases trails with rfl | rfl | rfl <;>
    simp [wrap, pair, inRow, addOps, opCount_plus_and, none_plus, Int.add_assoc, form]

theorem andB_andV (x y z : Cost Int) :
    pair .andB (pair .andV x y) z = pair .andV x (pair .andB y z) := by
  simp [pair, inRow, addOps, legacy_both_assoc, OpCount.and_assoc, opCount_plus_and, none_plus,
    Int.add_assoc]

end Cost

/-! ## Facts of regrouped fragments -/

namespace Fragment

variable {x y z : Fragment} {facts : Facts Int}

theorem dissat_of_verify {fx : Facts Int} (hx : x.facts? = .ok fx) (base : fx.type.corr.base = .V) :
    fx.type.mall.dissat = .none :=
  ((coherent_of_facts? hx).verify base).2.2

theorem facts?_nest (typed : (pair .andV (pair .andV x y) z).facts? = .ok facts) :
    (pair .andV x (pair .andV y z)).facts? = .ok facts := by
  obtain ⟨fxy, fz, c, hxy, hz, outer, rfl, -⟩ := facts?_pair_iff.1 typed
  obtain ⟨fx, fy, d, hx, hy, inner, rfl, -⟩ := facts?_pair_iff.1 hxy
  obtain ⟨vx, -, rfl⟩ := Correctness.pair_andV_iff.1 inner
  obtain ⟨vy, wz, rfl⟩ := Correctness.pair_andV_iff.1 outer
  have typedYZ := facts?_pair_of_covered hy hz (Correctness.pair_andV_iff.2 ⟨vy, wz, rfl⟩)
    (covered_cost _)
  rw [facts?_pair_of_covered hx typedYZ (Correctness.pair_andV_iff.2 ⟨vx, wz, rfl⟩) (covered_cost _),
    Input.andThen_assoc, Cost.andV_assoc,
    Malleability.andV_assoc (dissat_of_verify hx vx) (dissat_of_verify hy vy)]

theorem facts?_float {w : Wrapper} (trails : w.Trails)
    (typed : (wrap w (pair .andV x y)).facts? = .ok facts) :
    (pair .andV x (wrap w y)).facts? = .ok facts := by
  obtain ⟨fxy, c, hxy, outer, rfl, -⟩ := facts?_wrap_iff.1 typed
  obtain ⟨fx, fy, d, hx, hy, inner, rfl, -⟩ := facts?_pair_iff.1 hxy
  obtain ⟨vx, wy, rfl⟩ := Correctness.pair_andV_iff.1 inner
  -- A wrapper that accepts the sequence accepts its second part and leaves the same base and unit.
  obtain ⟨e, accepted, base, rfl⟩ : ∃ e, Correctness.wrap w fy.type.corr = .ok e ∧ e.base ≠ .W ∧
      c = ⟨e.base, fx.type.corr.input.andThen e.input, false, e.unit⟩ := by
    rcases trails with rfl | rfl | rfl
    · obtain ⟨base, rfl⟩ := Correctness.wrap_check_iff.1 outer
      exact ⟨_, Correctness.wrap_check_iff.2 ⟨base, rfl⟩, by simp, rfl⟩
    · obtain ⟨base, rfl⟩ := Correctness.wrap_verify_iff.1 outer
      exact ⟨_, Correctness.wrap_verify_iff.2 ⟨base, rfl⟩, by simp, rfl⟩
    · obtain ⟨base, rfl⟩ := Correctness.wrap_zeroNotEqual_iff.1 outer
      exact ⟨_, Correctness.wrap_zeroNotEqual_iff.2 ⟨base, rfl⟩, by simp, rfl⟩
  have typedY := facts?_wrap_of_covered hy accepted (covered_cost _)
  rw [facts?_pair_of_covered hx typedY (Correctness.pair_andV_iff.2 ⟨vx, base, rfl⟩)
    (covered_cost _), Cost.wrap_andV trails, Malleability.wrap_andV trails (dissat_of_verify hx vx)]

theorem facts?_floatAndB (typed : (pair .andB (pair .andV x y) z).facts? = .ok facts) :
    (pair .andV x (pair .andB y z)).facts? = .ok facts := by
  obtain ⟨fxy, fz, c, hxy, hz, outer, rfl, -⟩ := facts?_pair_iff.1 typed
  obtain ⟨fx, fy, d, hx, hy, inner, rfl, -⟩ := facts?_pair_iff.1 hxy
  obtain ⟨vx, -, rfl⟩ := Correctness.pair_andV_iff.1 inner
  obtain ⟨base, wz, rfl⟩ := Correctness.pair_andB_iff.1 outer
  have typedYZ := facts?_pair_of_covered hy hz (Correctness.pair_andB_iff.2 ⟨base, wz, rfl⟩)
    (covered_cost _)
  rw [facts?_pair_of_covered hx typedYZ (Correctness.pair_andV_iff.2 ⟨vx, by simp, rfl⟩)
    (covered_cost _), Input.andThen_assoc, Cost.andB_andV,
    Malleability.andB_andV (dissat_of_verify hx vx), Bool.false_and]

end Fragment

namespace Regrouped

/-- The words of a threshold depend only on those of its parts. -/
theorem sumWords_replace {x x' : Fragment} (same : x'.words = x.words)
    (before after : List Fragment) (first : Bool) :
    Fragment.sumWords first (before ++ x' :: after)
      = Fragment.sumWords first (before ++ x :: after) := by
  induction before generalizing first with
  | nil => simp [Fragment.sumWords, same]
  | cons y before ih => simp [Fragment.sumWords, ih]

theorem forall₂_replace {x x' : Fragment}
    (kept : ∀ fx : Facts Int, x.facts? = .ok fx → x'.facts? = .ok fx) {before after : List Fragment}
    {fs : List (Facts Int)}
    (each : List.Forall₂ (fun y fy => y.facts? = .ok fy) (before ++ x :: after) fs) :
    List.Forall₂ (fun y fy => y.facts? = .ok fy) (before ++ x' :: after) fs := by
  induction before generalizing fs with
  | nil =>
    obtain ⟨fx, rest, head, tail, rfl⟩ := List.forall₂_cons_left_iff.1 each
    exact .cons (kept fx head) tail
  | cons y before ih =>
    obtain ⟨fy, rest, head, tail, rfl⟩ := List.forall₂_cons_left_iff.1 each
    exact .cons head (ih tail)

/-- Regrouping does not change the script. -/
theorem words_eq {f g : Fragment} (regrouped : Regrouped f g) : g.words = f.words := by
  induction regrouped with
  | refl f => rfl
  | trans _ _ ih ih' => rw [ih', ih]
  | nest x y z => simp
  | float trails x y => rcases trails with rfl | rfl | rfl <;> simp
  | floatAndB x y z => simp
  | wrap w _ ih => cases w <;> simp [ih]
  | pair op _ _ ih ih' => cases op <;> simp [ih, ih']
  | andor _ _ _ ih ih' ih'' => simp [ih, ih', ih'']
  | thresh k before after _ ih =>
    rw [Fragment.words_thresh, Fragment.words_thresh, sumWords_replace ih]

/-- Regrouping does not change facts that are exact. -/
theorem exactFacts? {f g : Fragment} (regrouped : Regrouped f g) {facts : Facts Int}
    (typed : f.facts? = .ok facts) : g.facts? = .ok facts := by
  induction regrouped generalizing facts with
  | refl f => exact typed
  | trans _ _ ih ih' => exact ih' (ih typed)
  | nest x y z => exact Fragment.facts?_nest typed
  | float trails x y => exact Fragment.facts?_float trails typed
  | floatAndB x y z => exact Fragment.facts?_floatAndB typed
  | wrap w _ ih =>
    obtain ⟨fx, c, hx, rest⟩ := Fragment.facts?_wrap_iff.1 typed
    exact Fragment.facts?_wrap_iff.2 ⟨fx, c, ih hx, rest⟩
  | pair op _ _ ih ih' =>
    obtain ⟨fx, fy, c, hx, hy, rest⟩ := Fragment.facts?_pair_iff.1 typed
    exact Fragment.facts?_pair_iff.2 ⟨fx, fy, c, ih hx, ih' hy, rest⟩
  | andor _ _ _ ih ih' ih'' =>
    obtain ⟨fx, fy, fz, c, hx, hy, hz, rest⟩ := Fragment.facts?_andor_iff.1 typed
    exact Fragment.facts?_andor_iff.2 ⟨fx, fy, fz, c, ih hx, ih' hy, ih'' hz, rest⟩
  | thresh k before after _ ih =>
    obtain ⟨fs, each, rest⟩ := Fragment.facts?_thresh_iff.1 typed
    exact Fragment.facts?_thresh_iff.2 ⟨fs, forall₂_replace (fun _ => ih) each, rest⟩

/-- Regrouping does not change the leaves. -/
theorem leaves_eq {f g : Fragment} (regrouped : Regrouped f g) : g.leaves = f.leaves := by
  induction regrouped with
  | refl f => rfl
  | trans _ _ ih ih' => rw [ih', ih]
  | thresh k before after _ ih =>
    simp [Fragment.leaves, Fragment.leavesOf_eq_flatMap, ih]
  | _ => simp_all [Fragment.leaves]

/-- Regrouping does not change the facts, as long as the operations are a word. -/
theorem facts? {f g : Fragment} (regrouped : Regrouped f g) {facts : Facts Int64}
    (typed : f.facts? = .ok facts) (fits : f.Fits) : g.facts? = .ok facts := by
  have exactly := regrouped.exactFacts? (Fragment.exact_of_facts? typed)
  have cost : f.cost Int = g.cost Int := Fragment.cost_of_facts? exactly
  have fits' : g.Fits := by
    rw [Fragment.Fits, Fragment.allOps, ← cost, regrouped.leaves_eq]
    exact fits
  rw [Fragment.facts?_of_exact exactly fits', Fragment.cost_eq_ofExact fits', ← cost,
    ← Fragment.cost_eq_ofExact fits, ← Fragment.cost_of_facts? typed]

/-- A threshold is regrouped part by part. -/
theorem thresh_all (k : Int) {subs subs' : List Fragment} (each : List.Forall₂ Regrouped subs subs')
    (before : List Fragment) :
    Regrouped (.thresh k (before ++ subs)) (.thresh k (before ++ subs')) := by
  induction each generalizing before with
  | nil => exact refl _
  | @cons x x' rest rest' head _ ih =>
    have tail := ih (before ++ [x'])
    rw [List.append_assoc, List.append_assoc] at tail
    exact (thresh k before rest head).trans tail

end Regrouped

/-! ## Sequences moved out as far as possible -/

/-- Where a fragment stands: on its own, as a sequence, or below the top of the stack. -/
inductive Role where
  | single
  | sequence
  | below

/-- A fragment in which sequences are nested to the right and stand only where a script shows where
they begin. -/
inductive Grouped : Role → Fragment → Prop
  | leaf (l : Leaf) : Grouped .single (.leaf l)
  | trail {w : Wrapper} (trails : w.Trails) {x : Fragment} :
    Grouped .single x → Grouped .single (.wrap w x)
  | dupIf {x : Fragment} : Grouped .sequence x → Grouped .single (.wrap .dupIf x)
  | nonZero {x : Fragment} : Grouped .sequence x → Grouped .single (.wrap .nonZero x)
  | andB {x y : Fragment} :
    Grouped .single x → Grouped .below y → Grouped .single (.pair .andB x y)
  | orB {x z : Fragment} : Grouped .single x → Grouped .below z → Grouped .single (.pair .orB x z)
  | orD {x z : Fragment} :
    Grouped .single x → Grouped .sequence z → Grouped .single (.pair .orD x z)
  | orC {x z : Fragment} :
    Grouped .single x → Grouped .sequence z → Grouped .single (.pair .orC x z)
  | orI {x z : Fragment} :
    Grouped .sequence x → Grouped .sequence z → Grouped .single (.pair .orI x z)
  | andor {x y z : Fragment} : Grouped .single x → Grouped .sequence y → Grouped .sequence z →
    Grouped .single (.andor x y z)
  | thresh (k : Int) {x : Fragment} {rest : List Fragment} :
    Grouped .single x → (∀ y ∈ rest, Grouped .below y) → Grouped .single (.thresh k (x :: rest))
  | last {x : Fragment} : Grouped .single x → Grouped .sequence x
  | andV {x y : Fragment} :
    Grouped .single x → Grouped .sequence y → Grouped .sequence (.pair .andV x y)
  | alt {x : Fragment} : Grouped .sequence x → Grouped .below (.wrap .alt x)
  | swap {x : Fragment} : Grouped .sequence x → Grouped .below (.wrap .swap x)

namespace Grouped

/-- What is written after a sequence may be written after its last part. -/
theorem floatOut {c : Fragment → Fragment}
    (floats : ∀ x y, Regrouped (c (.pair .andV x y)) (.pair .andV x (c y)))
    (closes : ∀ x, Grouped .single x → Grouped .sequence (c x)) {x : Fragment}
    (grouped : Grouped .sequence x) : ∃ y, Regrouped (c x) y ∧ Grouped .sequence y := by
  generalize role : Role.sequence = r at grouped
  induction grouped with
  | last single _ => exact ⟨_, .refl _, closes _ single⟩
  | @andV x y single _ _ ih =>
    obtain ⟨z, regrouped, sequence⟩ := ih rfl
    exact ⟨_, (floats x y).trans (.pair .andV (.refl x) regrouped), .andV single sequence⟩
  | _ => cases role

end Grouped

/-- The place that a fragment of the given type can take once it is regrouped. -/
structure Correctness.Fits (c : Correctness) (g : Fragment) : Prop where
  below : c.base = .W → Grouped .below g
  sequence : c.base ≠ .W → Grouped .sequence g
  single : c.base ≠ .W → c.dissatisfiable = true → Grouped .single g

namespace Correctness

theorem Fits.of_single {c : Correctness} {g : Fragment} (base : c.base ≠ .W)
    (single : Grouped .single g) : c.Fits g :=
  ⟨fun below => (base below).elim, fun _ => .last single, fun _ _ => single⟩

theorem Fits.of_sequence {c : Correctness} {g : Fragment} (base : c.base ≠ .W)
    (not : c.dissatisfiable = false) (sequence : Grouped .sequence g) : c.Fits g :=
  ⟨fun below => (base below).elim, fun _ => sequence, fun _ yes => by simp [not] at yes⟩

theorem Fits.of_below {c : Correctness} {g : Fragment} (base : c.base = .W)
    (below : Grouped .below g) : c.Fits g :=
  ⟨fun _ => below, fun other => (other base).elim, fun other => (other base).elim⟩

end Correctness

namespace Fragment

theorem exists_fits_wrap {w : Wrapper} {x : Fragment} {c d : Correctness} (fits : c.Fits x)
    (accepted : Correctness.wrap w c = .ok d) : ∃ g, Regrouped (wrap w x) g ∧ d.Fits g := by
  -- A trailing wrapper stays where it is around a single fragment, and else moves to the end.
  have trailing (trails : w.Trails) (base : c.base ≠ .W) (base' : d.base ≠ .W)
      (dissat : c.dissatisfiable = false → d.dissatisfiable = false) :
      ∃ g, Regrouped (wrap w x) g ∧ d.Fits g := by
    cases yes : c.dissatisfiable with
    | true => exact ⟨_, .refl _, .of_single base' (.trail trails (fits.single base yes))⟩
    | false =>
      obtain ⟨g, regrouped, sequence⟩ := Grouped.floatOut (c := wrap w)
        (fun _ _ => .float trails _ _) (fun _ single => .last (.trail trails single))
        (fits.sequence base)
      exact ⟨g, regrouped, .of_sequence base' (dissat yes) sequence⟩
  cases w with
  | alt =>
    obtain ⟨base, rfl⟩ := Correctness.wrap_alt_iff.1 accepted
    exact ⟨_, .refl _, .of_below rfl (.alt (fits.sequence (by simp [base])))⟩
  | swap =>
    obtain ⟨base, -, rfl⟩ := Correctness.wrap_swap_iff.1 accepted
    exact ⟨_, .refl _, .of_below rfl (.swap (fits.sequence (by simp [base])))⟩
  | check =>
    obtain ⟨base, rfl⟩ := Correctness.wrap_check_iff.1 accepted
    exact trailing (.inl rfl) (by simp [base]) (by simp) id
  | dupIf =>
    obtain ⟨base, -, rfl⟩ := Correctness.wrap_dupIf_iff.1 accepted
    exact ⟨_, .refl _, .of_single (by simp) (.dupIf (fits.sequence (by simp [base])))⟩
  | verify =>
    obtain ⟨base, rfl⟩ := Correctness.wrap_verify_iff.1 accepted
    exact trailing (.inr (.inl rfl)) (by simp [base]) (by simp) (fun _ => rfl)
  | nonZero =>
    obtain ⟨base, -, rfl⟩ := Correctness.wrap_nonZero_iff.1 accepted
    exact ⟨_, .refl _, .of_single (by simp) (.nonZero (fits.sequence (by simp [base])))⟩
  | zeroNotEqual =>
    obtain ⟨base, rfl⟩ := Correctness.wrap_zeroNotEqual_iff.1 accepted
    exact trailing (.inr (.inr rfl)) (by simp [base]) (by simp) id

theorem exists_fits_pair {op : Combinator} {x y : Fragment} {l r d : Correctness} (left : l.Fits x)
    (right : r.Fits y) (accepted : Correctness.pair op l r = .ok d) :
    ∃ g, Regrouped (pair op x y) g ∧ d.Fits g := by
  cases op with
  | andV =>
    obtain ⟨base, base', rfl⟩ := Correctness.pair_andV_iff.1 accepted
    obtain ⟨g, regrouped, sequence⟩ := Grouped.floatOut (c := (pair .andV · y))
      (fun _ _ => .nest _ _ _) (fun _ single => .andV single (right.sequence base'))
      (left.sequence (by simp [base]))
    exact ⟨g, regrouped, .of_sequence base' rfl sequence⟩
  | andB =>
    obtain ⟨base, base', rfl⟩ := Correctness.pair_andB_iff.1 accepted
    have notBelow : l.base ≠ .W := by simp [base]
    have below := right.below base'
    cases yes : l.dissatisfiable with
    | true => exact ⟨_, .refl _, .of_single (by simp) (.andB (left.single notBelow yes) below)⟩
    | false =>
      obtain ⟨g, regrouped, sequence⟩ := Grouped.floatOut (c := (pair .andB · y))
        (fun _ _ => .floatAndB _ _ _) (fun _ single => .last (.andB single below))
        (left.sequence notBelow)
      exact ⟨g, regrouped, .of_sequence (by simp) rfl sequence⟩
  | orB =>
    obtain ⟨base, base', dissat, -, rfl⟩ := Correctness.pair_orB_iff.1 accepted
    exact ⟨_, .refl _, .of_single (by simp)
      (.orB (left.single (by simp [base]) dissat) (right.below base'))⟩
  | orD =>
    obtain ⟨base, base', dissat, -, rfl⟩ := Correctness.pair_orD_iff.1 accepted
    exact ⟨_, .refl _, .of_single (by simp)
      (.orD (left.single (by simp [base]) dissat) (right.sequence (by simp [base'])))⟩
  | orC =>
    obtain ⟨base, base', dissat, -, rfl⟩ := Correctness.pair_orC_iff.1 accepted
    exact ⟨_, .refl _, .of_single (by simp)
      (.orC (left.single (by simp [base]) dissat) (right.sequence (by simp [base'])))⟩
  | orI =>
    obtain ⟨same, base, rfl⟩ := Correctness.pair_orI_iff.1 accepted
    exact ⟨_, .refl _, .of_single base
      (.orI (left.sequence base) (right.sequence (same ▸ base)))⟩

theorem exists_fits_thresh {ν : Type} {k : Int} {subs : List Fragment} {fs : List (Facts ν)}
    (each : List.Forall₂ (fun x fx => ∃ g, Regrouped x g ∧ fx.type.corr.Fits g) subs fs)
    (some : fs ≠ [])
    (accepted : Correctness.checkSubs 0 (fs.map fun x => x.type.corr) = .ok ()) :
    ∃ g, Regrouped (thresh k subs) g ∧ Grouped .single g := by
  cases each with
  | nil => exact (some rfl).elim
  | @cons x fx rest fs head tail =>
    rw [List.map_cons, Correctness.checkSubs_zero_cons_iff] at accepted
    obtain ⟨⟨base, -, dissat⟩, others⟩ := accepted
    obtain ⟨g, regrouped, fits⟩ := head
    obtain ⟨gs, regroupedAll, below⟩ :
        ∃ gs, List.Forall₂ Regrouped rest gs ∧ ∀ y ∈ gs, Grouped .below y := by
      clear some
      induction tail with
      | nil => exact ⟨[], .nil, by simp⟩
      | @cons y fy rest fs head _ ih =>
        rw [List.map_cons, List.forall_mem_cons] at others
        obtain ⟨gs, regroupedAll, below⟩ := ih others.2
        obtain ⟨h, regrouped, fits⟩ := head
        exact ⟨h :: gs, .cons regrouped regroupedAll,
          List.forall_mem_cons.2 ⟨fits.below others.1.1, below⟩⟩
    exact ⟨_, Regrouped.thresh_all k (.cons regrouped regroupedAll) [],
      .thresh k (fits.single (by simp [base]) dissat) below⟩

/-- Every typed fragment can be regrouped so that sequences stand only where a script shows where
they begin. -/
theorem exists_fits {ν : Type} [Add ν] [Sub ν] [Counting ν] {f : Fragment} {facts : Facts ν}
    (typed : f.facts? = .ok facts) : ∃ g, Regrouped f g ∧ facts.type.corr.Fits g := by
  induction f generalizing facts with
  | leaf l =>
    obtain ⟨-, rfl, -⟩ := facts?_leaf_iff.1 typed
    have base : (Correctness.ofLeaf l).base ≠ .W := by
      cases l <;> rintro ⟨⟩
    exact ⟨_, .refl _, .of_single base (.leaf l)⟩
  | wrap w x ih =>
    obtain ⟨fx, c, hx, accepted, rfl, -⟩ := facts?_wrap_iff.1 typed
    obtain ⟨x', regrouped, fits⟩ := ih hx
    obtain ⟨g, further, fits'⟩ := exists_fits_wrap fits accepted
    exact ⟨g, (Regrouped.wrap w regrouped).trans further, fits'⟩
  | pair op x y ihx ihy =>
    obtain ⟨fx, fy, c, hx, hy, accepted, rfl, -⟩ := facts?_pair_iff.1 typed
    obtain ⟨x', regroupedX, fitsX⟩ := ihx hx
    obtain ⟨y', regroupedY, fitsY⟩ := ihy hy
    obtain ⟨g, further, fits⟩ := exists_fits_pair fitsX fitsY accepted
    exact ⟨g, (Regrouped.pair op regroupedX regroupedY).trans further, fits⟩
  | andor x y z ihx ihy ihz =>
    obtain ⟨fx, fy, fz, c, hx, hy, hz, accepted, rfl, -⟩ := facts?_andor_iff.1 typed
    obtain ⟨x', regroupedX, fitsX⟩ := ihx hx
    obtain ⟨y', regroupedY, fitsY⟩ := ihy hy
    obtain ⟨z', regroupedZ, fitsZ⟩ := ihz hz
    obtain ⟨base, same, base', dissat, -, rfl⟩ := Correctness.andor_iff.1 accepted
    exact ⟨_, .andor regroupedX regroupedY regroupedZ, .of_single base'
      (.andor (fitsX.single (by simp [base]) dissat) (fitsY.sequence base')
        (fitsZ.sequence (same ▸ base')))⟩
  | thresh k subs ih =>
    obtain ⟨fs, each, checked, accepted, rfl, -⟩ := facts?_thresh_iff.1 typed
    have fits : List.Forall₂ (fun x fx => ∃ g, Regrouped x g ∧ fx.type.corr.Fits g) subs fs :=
      ((List.forall₂_and_left subs fs).2 ⟨fun x member => @ih x member, each⟩).imp
        fun _ _ both => both.1 both.2
    have some : fs ≠ [] := by
      rintro rfl
      have range := Facts.checkThreshold_iff.1 checked
      simp only [List.length_nil] at range
      omega
    obtain ⟨g, regrouped, single⟩ := exists_fits_thresh fits some accepted
    exact ⟨g, regrouped, .of_single (by simp [Correctness.ofSubs]) single⟩

end Fragment

end LockScript
