import LockScript.Proofs.Execution.Machine

/-!
What fragments do to the stack.

`Evaluates env f st v rest` says that the fragment `f` takes the stack `st` to the value `v` and the
remaining stack `rest`. It leaves open where the value is put: a B and a K leave it on top of
`rest`, a V has verified it and leaves `rest` alone, and a W, which was started below some element,
leaves that element on top of `rest` and the value next to it.

A typed fragment takes from the stack what the input of its type says (`Evaluates.takes`), and a
true value of a unit is exactly 1 (`Evaluates.eq_one`).
-/

namespace LockScript

open Machine

/-! ## Taking from the stack -/

/-- What is left of a stack when as much is taken from it as an input says. -/
def Input.Takes : Input → Stack → Stack → Prop
  | .zero, st, rest => rest = st
  | .one, st, rest => ∃ d, st = d :: rest
  | .oneNonZero, st, rest => ∃ d, st = d :: rest
  | .any, st, rest => rest <:+ st
  | .anyNonZero, st, rest => rest <:+ st
  | .other _, _, _ => False

namespace Input

variable {i j k : Input} {st mid rest : Stack}

theorem Takes.suffix (taken : i.Takes st rest) : rest <:+ st := by
  cases i with
  | zero => exact taken ▸ List.suffix_rfl
  | one =>
    obtain ⟨d, rfl⟩ := taken
    exact List.suffix_cons d rest
  | oneNonZero =>
    obtain ⟨d, rfl⟩ := taken
    exact List.suffix_cons d rest
  | any => exact taken
  | anyNonZero => exact taken
  | other code => cases taken

theorem takes_of_isSubtype_one (one : i.isSubtype .one = true) (taken : i.Takes st rest) :
    ∃ d, st = d :: rest := by
  cases i <;> first | exact taken | simp [isSubtype] at one

theorem Takes.andThen (first : i.Takes st mid) (second : j.Takes mid rest) :
    (i.andThen j).Takes st rest := by
  have suffix := second.suffix.trans first.suffix
  cases i <;> cases j <;> first | exact suffix | grind [Input.andThen, Takes]

theorem Takes.both (first : i.Takes st mid) (second : j.Takes mid rest) :
    (i.both j).Takes st rest := by
  have suffix := second.suffix.trans first.suffix
  unfold Input.both
  split
  · next zero =>
    rw [zero.1] at first
    rw [zero.2] at second
    exact Eq.trans second first
  · split
    · next one =>
      rcases one with ⟨zero, one⟩ | ⟨one, zero⟩
      · rw [zero] at first
        rw [← show mid = st from first]
        exact takes_of_isSubtype_one one second
      · rw [zero] at second
        rw [show rest = mid from second]
        exact takes_of_isSubtype_one one first
    · exact suffix

theorem Takes.orElse (first : i.Takes st mid) (second : rest = mid ∨ j.Takes mid rest) :
    (i.orElse j).Takes st rest := by
  have suffix : rest <:+ st := by
    rcases second with rfl | second
    · exact first.suffix
    · exact second.suffix.trans first.suffix
  have stays (zero : j = .zero) : rest = mid := by
    rcases second with same | second
    · exact same
    · rw [zero] at second
      exact second
  unfold Input.orElse
  split
  · next zero =>
    rw [zero.1] at first
    exact (stays zero.2).trans first
  · split
    · next one =>
      rw [stays one.2]
      exact takes_of_isSubtype_one one.1 first
    · exact suffix

theorem Takes.branch (first : i.Takes st mid) (second : j.Takes mid rest ∨ k.Takes mid rest) :
    (i.branch j k).Takes st rest := by
  have suffix : rest <:+ st := by
    rcases second with second | second <;> exact second.suffix.trans first.suffix
  unfold Input.branch
  split
  · next zero =>
    rw [zero.1] at first
    rw [zero.2.1, zero.2.2, or_self] at second
    exact Eq.trans second first
  · split
    · next one =>
      rcases one with ⟨zero, one₁, one₂⟩ | ⟨one, zero₁, zero₂⟩
      · rw [zero] at first
        rw [← show mid = st from first]
        rcases second with second | second
        · exact takes_of_isSubtype_one one₁ second
        · exact takes_of_isSubtype_one one₂ second
      · rw [zero₁, zero₂, or_self] at second
        rw [show rest = mid from second]
        exact takes_of_isSubtype_one one first
    · exact suffix

/-- Of two branches one is run, after the element that chooses between them. -/
theorem takes_either {d : Bytes} (second : i.Takes st rest ∨ j.Takes st rest) :
    (if i = .zero ∧ j = .zero then Input.one else .any).Takes (d :: st) rest := by
  split
  · next zero =>
    rw [zero.1, zero.2, or_self] at second
    rw [show rest = st from second]
    exact ⟨d, rfl⟩
  · rcases second with second | second <;>
      exact second.suffix.trans (List.suffix_cons d st)

/-- Inputs of fragments that are run one after the other. -/
inductive TakesAll : List Input → Stack → Stack → Prop
  | nil {st : Stack} : TakesAll [] st st
  | cons {i : Input} {is : List Input} {st mid rest : Stack} :
    i.Takes st mid → TakesAll is mid rest → TakesAll (i :: is) st rest

theorem TakesAll.takes {is : List Input} (taken : TakesAll is st rest) :
    (Input.all is).Takes st rest := by
  have counted : rest <:+ st ∧ ((is.map count).sum = 0 → rest = st) ∧
      ((is.map count).sum = 1 → ∃ d, st = d :: rest) := by
    induction taken with
    | nil => simp
    | @cons i is st mid rest first others ih =>
      obtain ⟨suffix, none, one⟩ := ih
      refine ⟨suffix.trans first.suffix, ?_, ?_⟩
      · intro zero
        cases i <;> grind [Takes, count]
      · intro single
        cases i <;> grind [Takes, count]
  obtain ⟨suffix, none, one⟩ := counted
  unfold Input.all
  split
  · next zero => exact none zero
  · next single => exact one single
  · exact suffix

end Input

/-- What is left by a fragment of the given base and input: for a K below the signature that is
yet to be checked, and for a W below the element it was started below. -/
def Base.Takes : Base → Input → Stack → Stack → Prop
  | .B, i, st, rest => i.Takes st rest
  | .V, i, st, rest => i.Takes st rest
  | .K, i, st, rest => ∀ sig below, rest = sig :: below → i.Takes st below
  | .W, i, st, rest => ∃ d above below, st = d :: above ∧ rest = d :: below ∧ i.Takes above below
  | .other _, _, _, _ => False

/-- What a last part takes, the whole takes with what went before. -/
theorem Base.Takes.imp {b : Base} {i j : Input} {st mid rest : Stack} (notW : b ≠ .W)
    (taken : b.Takes j mid rest) (whole : ∀ below, j.Takes mid below → i.Takes st below) :
    b.Takes i st rest := by
  cases b with
  | B => exact whole rest taken
  | V => exact whole rest taken
  | K =>
    intro sig below same
    exact whole below (taken sig below same)
  | W => exact absurd rfl notW
  | other code => exact taken

namespace Machine

variable {env : Environment}

/-! ## The value of a fragment -/

/-- The value of a leaf. -/
inductive EvaluatesLeaf (env : Environment) : Leaf → Stack → Bytes → Stack → Prop
  | zero {st : Stack} : EvaluatesLeaf env .zero st [] st
  | one {st : Stack} : EvaluatesLeaf env .one st [1] st
  | pk {k : Key} {d : Bytes} {st : Stack} :
    k.bytes? = some d → EvaluatesLeaf env (.pk k) st d st
  | pkHash {hash : Digest 20} {d : Bytes} {st : Stack} :
    env.digest .hash160 d = hash → EvaluatesLeaf env (.pkHash hash) (d :: st) d st
  | after {lock : UInt32} {st : Stack} :
    env.after lock.toNat = true →
    EvaluatesLeaf env (.after lock) st (ScriptNumber.encode lock.toNat) st
  | older {lock : UInt32} {st : Stack} :
    env.older lock.toNat = true →
    EvaluatesLeaf env (.older lock) st (ScriptNumber.encode lock.toNat) st
  | hashLock {f : HashFunction} {image : Digest f.width} {d : Bytes} {st : Stack} :
    d.length = 32 →
    EvaluatesLeaf env (.hashLock f image) (d :: st) (flag (env.digest f d = image)) st
  | multi {k : Int} {keys : List Key} {ds sigs : List Bytes} {dummy : Bytes} {st : Stack} :
    keys.map Key.bytes? = ds.map some → sigs.length = k.toNat →
    EvaluatesLeaf env (.multi k keys) (sigs ++ dummy :: st) (flag (inOrder env ds.reverse sigs)) st

mutual

/-- The value of a fragment. -/
inductive Evaluates (env : Environment) : Fragment → Stack → Bytes → Stack → Prop
  | leaf {l : Leaf} {st rest : Stack} {v : Bytes} :
    EvaluatesLeaf env l st v rest → Evaluates env (.leaf l) st v rest
  | alt {x : Fragment} {st rest : Stack} {d v : Bytes} :
    Evaluates env x st v rest → Evaluates env (.wrap .alt x) (d :: st) v (d :: rest)
  | swap {x : Fragment} {st rest : Stack} {d w v : Bytes} :
    Evaluates env x (w :: d :: st) v rest → Evaluates env (.wrap .swap x) (d :: w :: st) v rest
  | check {x : Fragment} {st rest : Stack} {key sig : Bytes} :
    Evaluates env x st key (sig :: rest) →
    Evaluates env (.wrap .check x) st (flag (env.accepts key sig)) rest
  | dupIf {x : Fragment} {st rest : Stack} {d u v : Bytes} :
    isTrue d = true → Evaluates env x (d :: st) u (v :: rest) →
    Evaluates env (.wrap .dupIf x) (d :: st) v rest
  | dupIfNot {x : Fragment} {st : Stack} {d : Bytes} :
    isTrue d = false → Evaluates env (.wrap .dupIf x) (d :: st) d st
  | verify {x : Fragment} {st rest : Stack} {v : Bytes} :
    Evaluates env x st v rest → isTrue v = true → Evaluates env (.wrap .verify x) st v rest
  | nonZero {x : Fragment} {st rest : Stack} {d v : Bytes} :
    d ≠ [] → Evaluates env x (d :: st) v rest → Evaluates env (.wrap .nonZero x) (d :: st) v rest
  | nonZeroNot {x : Fragment} {st : Stack} : Evaluates env (.wrap .nonZero x) ([] :: st) [] st
  | zeroNotEqual {x : Fragment} {st rest : Stack} {v : Bytes} {n : Int} :
    Evaluates env x st v rest → operand? v = some n →
    Evaluates env (.wrap .zeroNotEqual x) st (flag (n ≠ 0)) rest
  | andV {x y : Fragment} {st mid rest : Stack} {u v : Bytes} :
    Evaluates env x st u mid → Evaluates env y mid v rest →
    Evaluates env (.pair .andV x y) st v rest
  | andB {x y : Fragment} {st mid rest : Stack} {a b c : Bytes} {n k : Int} :
    Evaluates env x st a mid → Evaluates env y (a :: mid) b (c :: rest) →
    operand? c = some n → operand? b = some k →
    Evaluates env (.pair .andB x y) st (flag (n ≠ 0 ∧ k ≠ 0)) rest
  | orB {x z : Fragment} {st mid rest : Stack} {a b c : Bytes} {n k : Int} :
    Evaluates env x st a mid → Evaluates env z (a :: mid) b (c :: rest) →
    operand? c = some n → operand? b = some k →
    Evaluates env (.pair .orB x z) st (flag (n ≠ 0 ∨ k ≠ 0)) rest
  | orD {x z : Fragment} {st rest : Stack} {v : Bytes} :
    Evaluates env x st v rest → isTrue v = true → Evaluates env (.pair .orD x z) st v rest
  | orDElse {x z : Fragment} {st mid rest : Stack} {u v : Bytes} :
    Evaluates env x st u mid → isTrue u = false → Evaluates env z mid v rest →
    Evaluates env (.pair .orD x z) st v rest
  | orC {x z : Fragment} {st rest : Stack} {v : Bytes} :
    Evaluates env x st v rest → isTrue v = true → Evaluates env (.pair .orC x z) st v rest
  | orCElse {x z : Fragment} {st mid rest : Stack} {u v : Bytes} :
    Evaluates env x st u mid → isTrue u = false → Evaluates env z mid v rest →
    Evaluates env (.pair .orC x z) st v rest
  | orI {x z : Fragment} {st rest : Stack} {d v : Bytes} :
    isTrue d = true → Evaluates env x st v rest → Evaluates env (.pair .orI x z) (d :: st) v rest
  | orIElse {x z : Fragment} {st rest : Stack} {d v : Bytes} :
    isTrue d = false → Evaluates env z st v rest → Evaluates env (.pair .orI x z) (d :: st) v rest
  | andor {x y z : Fragment} {st mid rest : Stack} {u v : Bytes} :
    Evaluates env x st u mid → isTrue u = true → Evaluates env y mid v rest →
    Evaluates env (.andor x y z) st v rest
  | andorElse {x y z : Fragment} {st mid rest : Stack} {u v : Bytes} :
    Evaluates env x st u mid → isTrue u = false → Evaluates env z mid v rest →
    Evaluates env (.andor x y z) st v rest
  | thresh {k : Int} {x : Fragment} {subs : List Fragment} {st mid rest : Stack}
    {a total : Bytes} :
    Evaluates env x st a mid → EvaluatesSum env subs a mid total rest →
    Evaluates env (.thresh k (x :: subs)) st (flag (ScriptNumber.encode k.toNat = total)) rest

/-- The sum of the values of fragments and of what is already there. -/
inductive EvaluatesSum (env : Environment) : List Fragment → Bytes → Stack → Bytes → Stack → Prop
  | nil {a : Bytes} {st : Stack} : EvaluatesSum env [] a st a st
  | cons {x : Fragment} {subs : List Fragment} {a b c total : Bytes} {st mid rest : Stack}
    {n k : Int} :
    Evaluates env x (a :: st) b (c :: mid) → operand? c = some n → operand? b = some k →
    EvaluatesSum env subs (ScriptNumber.encodeInt (n + k)) mid total rest →
    EvaluatesSum env (x :: subs) a st total rest

end

/-! ## The stack -/

theorem EvaluatesLeaf.takes {l : Leaf} {st rest : Stack} {v : Bytes}
    (evaluated : EvaluatesLeaf env l st v rest) :
    (Correctness.ofLeaf l).base.Takes (Correctness.ofLeaf l).input st rest := by
  cases evaluated with
  | zero => rfl
  | one => rfl
  | pk known => exact fun sig below same => ⟨sig, same⟩
  | pkHash committed =>
    intro sig below same
    rw [same]
    exact (List.suffix_cons sig below).trans (List.suffix_cons _ _)
  | after passes => rfl
  | older passes => rfl
  | hashLock size => exact ⟨_, rfl⟩
  | multi known enough => exact (List.suffix_cons _ _).trans (List.suffix_append _ _)

/-- A sum takes what its parts take, one after the other, if these are W. -/
theorem EvaluatesSum.takesAll {subs : List Fragment} {fs : List (Facts Int64)} {a total : Bytes}
    {st rest : Stack} (evaluated : EvaluatesSum env subs a st total rest)
    (typed : List.Forall₂ (fun x fx => x.facts? = .ok fx) subs fs)
    (below : ∀ x ∈ subs, ∀ fx ∈ fs, x.facts? = .ok fx → ∀ {st v rest}, Evaluates env x st v rest →
      fx.type.corr.base.Takes fx.type.corr.input st rest)
    (w : ∀ fx ∈ fs, fx.type.corr.base = .W) :
    Input.TakesAll (fs.map fun fx => fx.type.corr.input) st rest := by
  induction typed generalizing a st with
  | nil =>
    cases evaluated with
    | nil => exact .nil
  | @cons x fx subs fs hx others ih =>
    cases evaluated with
    | cons first left right others' =>
      have taken := below x List.mem_cons_self fx List.mem_cons_self hx first
      rw [w fx List.mem_cons_self] at taken
      obtain ⟨d, above, left', same, same', taken⟩ := taken
      cases same
      cases same'
      exact .cons taken (ih others' (fun y member fy member' =>
        below y (List.mem_cons_of_mem _ member) fy (List.mem_cons_of_mem _ member'))
        fun fy member => w fy (List.mem_cons_of_mem _ member))

/-- A typed fragment takes from the stack what its type says. -/
theorem Evaluates.takes {f : Fragment} {facts : Facts Int64} {st rest : Stack} {v : Bytes}
    (typed : f.facts? = .ok facts) (evaluated : Evaluates env f st v rest) :
    facts.type.corr.base.Takes facts.type.corr.input st rest := by
  induction f generalizing facts st v rest with
  | leaf l =>
    obtain ⟨-, rfl, -⟩ := Fragment.facts?_leaf_iff.1 typed
    cases evaluated with
    | leaf evaluated => exact evaluated.takes
  | wrap w x ih =>
    obtain ⟨fx, c, hx, made, rfl, -⟩ := Fragment.facts?_wrap_iff.1 typed
    cases evaluated with
    | alt inner =>
      obtain ⟨base, rfl⟩ := Correctness.wrap_alt_iff.1 made
      have taken := ih hx inner
      rw [base] at taken
      exact ⟨_, _, _, rfl, rfl, taken.suffix⟩
    | swap inner =>
      obtain ⟨base, one, rfl⟩ := Correctness.wrap_swap_iff.1 made
      have taken := ih hx inner
      rw [base] at taken
      obtain ⟨d, same⟩ := Input.takes_of_isSubtype_one one taken
      cases same
      exact ⟨_, _, _, rfl, rfl, List.suffix_cons _ _⟩
    | check inner =>
      obtain ⟨base, rfl⟩ := Correctness.wrap_check_iff.1 made
      have taken := ih hx inner
      rw [base] at taken
      exact taken _ _ rfl
    | dupIf set inner =>
      obtain ⟨base, zero, rfl⟩ := Correctness.wrap_dupIf_iff.1 made
      have taken := ih hx inner
      rw [base, zero] at taken
      cases taken
      exact ⟨_, rfl⟩
    | dupIfNot clear =>
      obtain ⟨base, zero, rfl⟩ := Correctness.wrap_dupIf_iff.1 made
      exact ⟨_, rfl⟩
    | verify inner set =>
      obtain ⟨base, rfl⟩ := Correctness.wrap_verify_iff.1 made
      have taken := ih hx inner
      rw [base] at taken
      exact taken
    | nonZero nonempty inner =>
      obtain ⟨base, -, rfl⟩ := Correctness.wrap_nonZero_iff.1 made
      have taken := ih hx inner
      rw [base] at taken
      exact taken
    | nonZeroNot =>
      obtain ⟨base, nonZero, rfl⟩ := Correctness.wrap_nonZero_iff.1 made
      show fx.type.corr.input.Takes _ _
      rcases nonZero with nonZero | nonZero
      · rw [nonZero]
        exact ⟨_, rfl⟩
      · rw [nonZero]
        exact List.suffix_cons _ _
    | zeroNotEqual inner read =>
      obtain ⟨base, rfl⟩ := Correctness.wrap_zeroNotEqual_iff.1 made
      have taken := ih hx inner
      rw [base] at taken
      exact taken
  | pair op x y ihx ihy =>
    obtain ⟨fx, fy, c, hx, hy, made, rfl, -⟩ := Fragment.facts?_pair_iff.1 typed
    cases evaluated with
    | andV first second =>
      obtain ⟨base, notW, rfl⟩ := Correctness.pair_andV_iff.1 made
      have taken := ihx hx first
      rw [base] at taken
      exact (ihy hy second).imp notW fun below taken' => taken.andThen taken'
    | andB first second left right =>
      obtain ⟨base, base', rfl⟩ := Correctness.pair_andB_iff.1 made
      have taken := ihx hx first
      have taken' := ihy hy second
      rw [base] at taken
      rw [base'] at taken'
      obtain ⟨d, above, below, same, same', taken'⟩ := taken'
      cases same
      cases same'
      exact taken.andThen taken'
    | orB first second left right =>
      obtain ⟨base, base', -, -, rfl⟩ := Correctness.pair_orB_iff.1 made
      have taken := ihx hx first
      have taken' := ihy hy second
      rw [base] at taken
      rw [base'] at taken'
      obtain ⟨d, above, below, same, same', taken'⟩ := taken'
      cases same
      cases same'
      exact taken.both taken'
    | orD first set =>
      obtain ⟨base, -, -, -, rfl⟩ := Correctness.pair_orD_iff.1 made
      have taken := ihx hx first
      rw [base] at taken
      exact taken.orElse (.inl rfl)
    | orDElse first clear second =>
      obtain ⟨base, base', -, -, rfl⟩ := Correctness.pair_orD_iff.1 made
      have taken := ihx hx first
      have taken' := ihy hy second
      rw [base] at taken
      rw [base'] at taken'
      exact taken.orElse (.inr taken')
    | orC first set =>
      obtain ⟨base, -, -, -, rfl⟩ := Correctness.pair_orC_iff.1 made
      have taken := ihx hx first
      rw [base] at taken
      exact taken.orElse (.inl rfl)
    | orCElse first clear second =>
      obtain ⟨base, base', -, -, rfl⟩ := Correctness.pair_orC_iff.1 made
      have taken := ihx hx first
      have taken' := ihy hy second
      rw [base] at taken
      rw [base'] at taken'
      exact taken.orElse (.inr taken')
    | orI set inner =>
      obtain ⟨same, notW, rfl⟩ := Correctness.pair_orI_iff.1 made
      exact (ihx hx inner).imp notW fun below taken => Input.takes_either (.inl taken)
    | orIElse clear inner =>
      obtain ⟨same, notW, rfl⟩ := Correctness.pair_orI_iff.1 made
      have taken := ihy hy inner
      rw [← same] at taken
      exact taken.imp notW fun below taken => Input.takes_either (.inr taken)
  | andor x y z ihx ihy ihz =>
    obtain ⟨fx, fy, fz, c, hx, hy, hz, made, rfl, -⟩ := Fragment.facts?_andor_iff.1 typed
    obtain ⟨base, same, notW, -, -, rfl⟩ := Correctness.andor_iff.1 made
    cases evaluated with
    | andor first set second =>
      have taken := ihx hx first
      rw [base] at taken
      exact (ihy hy second).imp notW fun below taken' => taken.branch (.inl taken')
    | andorElse first clear second =>
      have taken := ihx hx first
      have taken' := ihz hz second
      rw [base] at taken
      rw [← same] at taken'
      exact taken'.imp notW fun below taken' => taken.branch (.inr taken')
  | thresh k subs ih =>
    obtain ⟨fs, each, -, made, rfl, -⟩ := Fragment.facts?_thresh_iff.1 typed
    cases evaluated with
    | @thresh k x subs st mid rest a total first others =>
      obtain ⟨fx, gs, hx, later, rfl⟩ := List.forall₂_cons_left_iff.1 each
      rw [List.map_cons, Correctness.checkSubs_zero_cons_iff] at made
      obtain ⟨⟨base, -, -⟩, w⟩ := made
      have taken := ih x List.mem_cons_self hx first
      rw [base] at taken
      have sum : Input.TakesAll (gs.map fun fx => fx.type.corr.input) mid rest :=
        others.takesAll later
          (fun y member fy _ hy => ih y (List.mem_cons_of_mem _ member) hy)
          (fun fy member => (w _ (List.mem_map_of_mem member)).1)
      have all := (Input.TakesAll.cons taken sum).takes
      simpa [Correctness.ofSubs, Base.Takes, List.map_map, Function.comp_def] using all

/-! ## Units -/

theorem EvaluatesLeaf.eq_one {l : Leaf} {st rest : Stack} {v : Bytes}
    (evaluated : EvaluatesLeaf env l st v rest) (base : (Correctness.ofLeaf l).base ≠ .K)
    (unit : (Correctness.ofLeaf l).unit = true) (set : isTrue v = true) : v = [1] := by
  cases evaluated with
  | zero => cases set
  | one => rfl
  | pk known => exact absurd rfl base
  | pkHash committed => exact absurd rfl base
  | after passes => cases unit
  | older passes => cases unit
  | hashLock size => exact flag_eq_one set
  | multi known enough => exact flag_eq_one set

/-- A unit is exactly 1 when it is true. Only a K, whose value is a key, is not held to this. -/
theorem Evaluates.eq_one {f : Fragment} {facts : Facts Int64} {st rest : Stack} {v : Bytes}
    (typed : f.facts? = .ok facts) (evaluated : Evaluates env f st v rest)
    (base : facts.type.corr.base ≠ .K) (unit : facts.type.corr.unit = true)
    (set : isTrue v = true) : v = [1] := by
  induction f generalizing facts st v rest with
  | leaf l =>
    obtain ⟨-, rfl, -⟩ := Fragment.facts?_leaf_iff.1 typed
    cases evaluated with
    | leaf evaluated => exact evaluated.eq_one base unit set
  | wrap w x ih =>
    obtain ⟨fx, c, hx, made, rfl, -⟩ := Fragment.facts?_wrap_iff.1 typed
    have inB (isB : fx.type.corr.base = .B) : fx.type.corr.base ≠ .K := by
      rw [isB]
      exact fun same => nomatch same
    cases evaluated with
    | alt inner =>
      obtain ⟨isB, rfl⟩ := Correctness.wrap_alt_iff.1 made
      exact ih hx inner (inB isB) unit set
    | swap inner =>
      obtain ⟨isB, -, rfl⟩ := Correctness.wrap_swap_iff.1 made
      exact ih hx inner (inB isB) unit set
    | check inner => exact flag_eq_one set
    | dupIf set' inner =>
      obtain ⟨-, -, rfl⟩ := Correctness.wrap_dupIf_iff.1 made
      cases unit
    | dupIfNot clear =>
      obtain ⟨-, -, rfl⟩ := Correctness.wrap_dupIf_iff.1 made
      cases unit
    | verify inner set' =>
      obtain ⟨-, rfl⟩ := Correctness.wrap_verify_iff.1 made
      cases unit
    | nonZero nonempty inner =>
      obtain ⟨isB, -, rfl⟩ := Correctness.wrap_nonZero_iff.1 made
      exact ih hx inner (inB isB) unit set
    | nonZeroNot => cases set
    | zeroNotEqual inner read => exact flag_eq_one set
  | pair op x y ihx ihy =>
    obtain ⟨fx, fy, c, hx, hy, made, rfl, -⟩ := Fragment.facts?_pair_iff.1 typed
    cases evaluated with
    | andV first second =>
      obtain ⟨-, -, rfl⟩ := Correctness.pair_andV_iff.1 made
      exact ihy hy second base unit set
    | andB first second left right => exact flag_eq_one set
    | orB first second left right => exact flag_eq_one set
    | orD first set' =>
      obtain ⟨isB, -, -, unit', rfl⟩ := Correctness.pair_orD_iff.1 made
      exact ihx hx first (isB ▸ base) unit' set
    | orDElse first clear second =>
      obtain ⟨-, isB, -, -, rfl⟩ := Correctness.pair_orD_iff.1 made
      exact ihy hy second (isB ▸ base) unit set
    | orC first set' =>
      obtain ⟨isB, -, -, unit', rfl⟩ := Correctness.pair_orC_iff.1 made
      cases unit
    | orCElse first clear second =>
      obtain ⟨-, -, -, -, rfl⟩ := Correctness.pair_orC_iff.1 made
      cases unit
    | orI set' inner =>
      obtain ⟨same, -, rfl⟩ := Correctness.pair_orI_iff.1 made
      exact ihx hx inner base (Bool.and_eq_true_iff.1 unit).1 set
    | orIElse clear inner =>
      obtain ⟨same, -, rfl⟩ := Correctness.pair_orI_iff.1 made
      exact ihy hy inner (same ▸ base) (Bool.and_eq_true_iff.1 unit).2 set
  | andor x y z ihx ihy ihz =>
    obtain ⟨fx, fy, fz, c, hx, hy, hz, made, rfl, -⟩ := Fragment.facts?_andor_iff.1 typed
    obtain ⟨-, same, -, -, -, rfl⟩ := Correctness.andor_iff.1 made
    cases evaluated with
    | andor first set' second => exact ihy hy second base (Bool.and_eq_true_iff.1 unit).1 set
    | andorElse first clear second =>
      exact ihz hz second (same ▸ base) (Bool.and_eq_true_iff.1 unit).2 set
  | thresh k subs ih =>
    cases evaluated with
    | thresh first others => exact flag_eq_one set

end Machine

end LockScript
