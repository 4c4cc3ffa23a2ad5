import LockScript.Proofs.Key.Reading
import LockScript.Proofs.Typing.Subtype
import LockScript.Proofs.Typing.Wrapping

/-!
Subtypes may stand wherever their supertypes do.

A context is a fragment with one part left out. If a fragment fits into a context then so does every
fragment of a subtype, and the whole is of a subtype too. One step is that each form of fragment keeps
this (`StandsFor`); a context is any number of steps. Types know nothing of costs, so all of this is
said of facts that are exact.
-/

namespace LockScript

/-! ## One step -/

namespace Fragment

/-- Wherever the second fragment has facts so has the first, with a subtype. -/
def StandsFor (f g : Fragment) : Prop :=
  ∀ facts' : Facts Int, g.facts? = .ok facts' →
    ∃ facts : Facts Int, f.facts? = .ok facts ∧ facts.type.isSubtype facts'.type = true

variable {x x' y y' z z' : Fragment}

theorem StandsFor.refl (f : Fragment) : f.StandsFor f :=
  fun facts typed => ⟨facts, typed, facts.type.isSubtype_refl⟩

theorem StandsFor.wrap (part : x.StandsFor x') (w : Wrapper) :
    (Fragment.wrap w x).StandsFor (.wrap w x') := by
  intro facts' typed
  obtain ⟨fx', t, hx', accepted, rfl, -⟩ := facts?_wrap_iff.1 typed
  obtain ⟨fx, hx, below⟩ := part fx' hx'
  obtain ⟨corr, mall⟩ := ScriptType.isSubtype_iff.1 below
  obtain ⟨s, accepted, better⟩ := Correctness.wrap_mono corr accepted
  exact ⟨_, facts?_wrap_of_covered hx accepted (covered_cost _),
    ScriptType.isSubtype_iff.2 ⟨better, Malleability.wrap_mono mall w⟩⟩

theorem StandsFor.pair (first : x.StandsFor x') (second : y.StandsFor y') (op : Combinator) :
    (Fragment.pair op x y).StandsFor (.pair op x' y') := by
  intro facts' typed
  obtain ⟨fx', fy', t, hx', hy', accepted, rfl, -⟩ := facts?_pair_iff.1 typed
  obtain ⟨fx, hx, below⟩ := first fx' hx'
  obtain ⟨fy, hy, below'⟩ := second fy' hy'
  obtain ⟨corr, mall⟩ := ScriptType.isSubtype_iff.1 below
  obtain ⟨corr', mall'⟩ := ScriptType.isSubtype_iff.1 below'
  obtain ⟨s, accepted, better⟩ := Correctness.pair_mono corr corr' accepted
  exact ⟨_, facts?_pair_of_covered hx hy accepted (covered_cost _),
    ScriptType.isSubtype_iff.2 ⟨better, Malleability.pair_mono mall mall' op⟩⟩

theorem StandsFor.andor (first : x.StandsFor x') (second : y.StandsFor y')
    (third : z.StandsFor z') : (Fragment.andor x y z).StandsFor (.andor x' y' z') := by
  intro facts' typed
  obtain ⟨fx', fy', fz', t, hx', hy', hz', accepted, rfl, -⟩ := facts?_andor_iff.1 typed
  obtain ⟨fx, hx, below⟩ := first fx' hx'
  obtain ⟨fy, hy, below'⟩ := second fy' hy'
  obtain ⟨fz, hz, below''⟩ := third fz' hz'
  obtain ⟨corr, mall⟩ := ScriptType.isSubtype_iff.1 below
  obtain ⟨corr', mall'⟩ := ScriptType.isSubtype_iff.1 below'
  obtain ⟨corr'', mall''⟩ := ScriptType.isSubtype_iff.1 below''
  obtain ⟨s, accepted, better⟩ := Correctness.andor_mono corr corr' corr'' accepted
  exact ⟨_, facts?_andor_of_covered hx hy hz accepted (covered_cost _),
    ScriptType.isSubtype_iff.2 ⟨better, Malleability.andor_mono mall mall' mall''⟩⟩

/-- Parts that stand for others, each for its own, have facts with subtypes. -/
theorem exists_facts_of_standsFor {xs xs' : List Fragment} {fs' : List (Facts Int)}
    (each : List.Forall₂ StandsFor xs xs')
    (typed : List.Forall₂ (fun x fx => x.facts? = .ok fx) xs' fs') :
    ∃ fs : List (Facts Int), List.Forall₂ (fun x fx => x.facts? = .ok fx) xs fs ∧
      List.Forall₂ (fun fx fx' => fx.type.isSubtype fx'.type = true) fs fs' := by
  induction each generalizing fs' with
  | nil =>
    cases typed
    exact ⟨[], .nil, .nil⟩
  | cons stands _ ih =>
    cases typed with
    | cons hx' others' =>
      obtain ⟨fx, hx, below⟩ := stands _ hx'
      obtain ⟨fs, others, belows⟩ := ih others'
      exact ⟨fx :: fs, .cons hx others, .cons below belows⟩

theorem StandsFor.thresh {xs xs' : List Fragment} (each : List.Forall₂ StandsFor xs xs')
    (k : Int) : (Fragment.thresh k xs).StandsFor (.thresh k xs') := by
  intro facts' typed
  obtain ⟨fs', parts', checked, accepted, rfl, -⟩ := facts?_thresh_iff.1 typed
  obtain ⟨fs, parts, below⟩ := exists_facts_of_standsFor each parts'
  have corr : List.Forall₂ (fun c d => c.isSubtype d = true) (fs.map fun x => x.type.corr)
      (fs'.map fun x => x.type.corr) := by
    rw [List.forall₂_map_left_iff, List.forall₂_map_right_iff]
    exact below.imp fun _ _ one => (ScriptType.isSubtype_iff.1 one).1
  have mall : List.Forall₂ (fun m n => m.isSubtype n = true) (fs.map fun x => x.type.mall)
      (fs'.map fun x => x.type.mall) := by
    rw [List.forall₂_map_left_iff, List.forall₂_map_right_iff]
    exact below.imp fun _ _ one => (ScriptType.isSubtype_iff.1 one).2
  have better := Malleability.threshold_mono mall k
  rw [List.length_map, List.length_map] at better
  rw [← below.length_eq] at checked
  have accepted := Correctness.checkSubs_mono corr accepted
  exact ⟨_, facts?_thresh_of_covered parts checked accepted (covered_cost _),
    ScriptType.isSubtype_iff.2 ⟨Correctness.ofSubs_mono corr, better⟩⟩

end Fragment

/-! ## Contexts -/

/-- A fragment with one part left out. -/
inductive Context where
  /-- All of it is left out. -/
  | hole
  | wrap (w : Wrapper) (c : Context)
  | pairLeft (op : Combinator) (c : Context) (y : Fragment)
  | pairRight (op : Combinator) (x : Fragment) (c : Context)
  | andorFirst (c : Context) (y z : Fragment)
  | andorSecond (x : Fragment) (c : Context) (z : Fragment)
  | andorThird (x y : Fragment) (c : Context)
  | thresh (k : Int) (before : List Fragment) (c : Context) (after : List Fragment)

namespace Context

/-- The fragment with `f` for the part that is left out. -/
def fill (f : Fragment) : Context → Fragment
  | .hole => f
  | .wrap w c => .wrap w (c.fill f)
  | .pairLeft op c y => .pair op (c.fill f) y
  | .pairRight op x c => .pair op x (c.fill f)
  | .andorFirst c y z => .andor (c.fill f) y z
  | .andorSecond x c z => .andor x (c.fill f) z
  | .andorThird x y c => .andor x y (c.fill f)
  | .thresh k before c after => .thresh k (before ++ c.fill f :: after)

theorem fill_standsFor {f g : Fragment} (stands : f.StandsFor g) (c : Context) :
    (c.fill f).StandsFor (c.fill g) := by
  have refl := Fragment.StandsFor.refl
  induction c with
  | hole => exact stands
  | wrap w c ih => exact ih.wrap w
  | pairLeft op c y ih => exact ih.pair (refl y) op
  | pairRight op x c ih => exact (refl x).pair ih op
  | andorFirst c y z ih => exact ih.andor (refl y) (refl z)
  | andorSecond x c z ih => exact (refl x).andor ih (refl z)
  | andorThird x y c ih => exact (refl x).andor (refl y) ih
  | thresh k before c after ih =>
    have same (xs : List Fragment) : List.Forall₂ Fragment.StandsFor xs xs :=
      List.forall₂_same.2 fun x _ => refl x
    exact .thresh (List.rel_append (same before) (.cons ih (same after))) k

/-- A checked fragment may take the place of any other of a supertype: wherever the other fits into
a context, so does the fragment, and the whole is of a subtype. The whole is checked if its operations
are a word, and whenever it is checked that is its type. -/
theorem fill_isSubtype (c : Context) {m m' : Checked} (below : m.type.isSubtype m'.type = true)
    {t' : ScriptType} (filled' : (c.fill m'.fragment).HasType t') :
    ∃ t, (c.fill m.fragment).HasType t ∧ t.isSubtype t' = true ∧
      ((c.fill m.fragment).Fits → ∃ whole : Checked, whole.fragment = c.fill m.fragment) ∧
      ∀ whole : Checked, whole.fragment = c.fill m.fragment → whole.type = t := by
  have stands : m.fragment.StandsFor m'.fragment := by
    intro facts' typed
    have same : m'.type = facts'.type := m'.hasType.eq (Fragment.hasType_iff.2 ⟨_, typed, rfl⟩)
    exact ⟨_, m.hasType, same ▸ below⟩
  obtain ⟨facts, typed, better⟩ := fill_standsFor stands c _ filled'
  have filled := Fragment.hasType_iff.2 ⟨facts, typed, rfl⟩
  refine ⟨facts.type, filled, better, fun fits => ?_, fun whole same => ?_⟩
  · obtain ⟨whole, same, -⟩ := filled.exists_checked fits
    exact ⟨whole, same⟩
  · exact (same ▸ whole.hasType).eq filled

/-- `c:pk(G)`. -/
def signed : Checked where
  fragment := .wrap .check (.leaf (.pk (.point .generator)))
  facts := ⟨⟨⟨.B, .oneNonZero, true, true⟩, ⟨.unique, true, true⟩⟩,
    ⟨.safe, 35, true, 1, some 1, some 1⟩⟩
  typed := by rfl

/-- `sha256(I)`, which is neither safe nor of a known dissatisfaction. -/
def hashed : Checked where
  fragment := .leaf (.hashLock .sha256 (.ofPrefix 32 [1]))
  facts := ⟨⟨⟨.B, .oneNonZero, true, true⟩, ⟨.unknown, false, true⟩⟩,
    ⟨.safe, 39, true, 4, some 4, some 4⟩⟩
  typed := by rfl

/-- `and_v(v:thresh(1,c:pk(G),s:_),older(5))`. -/
def lateChoice : Context :=
  .pairLeft .andV (.wrap .verify (.thresh 1 [signed.fragment] (.wrap .swap .hole) []))
    (.leaf (.older 5))

/-- The choice with the hash lock, which is malleable and needs no signature. -/
def hashedChoice : Checked where
  fragment := lateChoice.fill hashed.fragment
  facts := ⟨⟨⟨.B, .any, false, false⟩, ⟨.none, false, false⟩⟩, ⟨.safe, 80, false, 9, some 9, none⟩⟩
  typed := by rfl

theorem fill_isSubtype_lateChoice :
    signed.type.isSubtype hashed.type = true ∧ hashed.type.isSubtype signed.type = false ∧
      ∃ whole : Checked, whole.fragment = lateChoice.fill signed.fragment ∧
        whole.type.isSubtype hashedChoice.type = true := by
  have below : signed.type.isSubtype hashed.type = true := rfl
  obtain ⟨t, -, better, checked, agrees⟩ := fill_isSubtype lateChoice below hashedChoice.hasType
  obtain ⟨whole, same⟩ := checked (by decide)
  exact ⟨below, rfl, whole, same, agrees whole same ▸ better⟩

end Context

end LockScript
