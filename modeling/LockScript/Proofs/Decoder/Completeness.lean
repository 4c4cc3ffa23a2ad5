import LockScript.Proofs.Decoder.Soundness
import LockScript.Proofs.Fragment.Operations
import LockScript.Proofs.Fragment.Regrouping

/-!
The decoder finds every fragment in its script.

A fragment whose sequences stand only where a script shows where they begin is found as it is
(`accepted_of_grouped`); the proof follows the fragment and says for each place what the decoder has
left to do once the fragment is found. Since every typed fragment can be regrouped to be of that
kind, and regrouping changes neither script nor facts, encoding can be undone up to the grouping of
sequences.
-/

namespace LockScript

namespace Decoder

variable {limit : Int}

/-! ## Where fragments end -/

/-- The symbols that fragments other than those below the top end in. -/
def IsFinal : Symbol → Prop
  | .op o => o ∈ [Opcode.checkSig, .verify, .zeroNotEqual, .checkSequenceVerify,
      .checkLockTimeVerify, .equal, .checkMultiSig, .endIf, .boolAnd, .boolOr]
  | .number _ => True
  | .push33 _ => True
  | _ => False

theorem exists_final_leaf {l : Leaf} (readable : l.Readable) :
    ∃ s, (Fragment.leaf l).spelled.head? = some s ∧ IsFinal s := by
  cases l with
  | zero => exact ⟨_, rfl, trivial⟩
  | one => exact ⟨_, rfl, trivial⟩
  | pk key =>
    obtain ⟨p, rfl⟩ := readable
    exact ⟨pointSymbol p, by rw [spelled_pk]; rfl, trivial⟩
  | pkHash hash => exact ⟨_, by rw [spelled_pkHash]; rfl, by simp [IsFinal]⟩
  | after n => exact ⟨_, by rw [spelled_after]; rfl, by simp [IsFinal]⟩
  | older n => exact ⟨_, by rw [spelled_older]; rfl, by simp [IsFinal]⟩
  | hashLock f image => exact ⟨_, by rw [spelled_hashLock]; rfl, by simp [IsFinal]⟩
  | multi k keys =>
    obtain ⟨ps, rfl⟩ := exists_points readable.2.2
    exact ⟨_, by rw [spelled_multi]; rfl, by simp [IsFinal]⟩

theorem exists_final {role : Role} {f : Fragment} (grouped : Grouped role f)
    (place : role ≠ .below) (readable : f.Readable) :
    ∃ s, f.spelled.head? = some s ∧ IsFinal s := by
  induction grouped with
  | leaf l => exact exists_final_leaf (Fragment.readable_leaf_iff.1 readable)
  | trail trails _ _ => rcases trails with rfl | rfl | rfl <;> simp [IsFinal]
  | thresh k _ _ _ _ => simp [Fragment.spelled_thresh, IsFinal]
  | last _ ih => exact ih (by simp) readable
  | andV _ _ _ ih =>
    obtain ⟨s, first, final⟩ := ih (by simp) (Fragment.readable_pair.1 readable).2
    exact ⟨s, by simp [first], final⟩
  | alt _ _ => exact (place rfl).elim
  | swap _ _ => exact (place rfl).elim
  | _ => simp [IsFinal]

/-- What follows a fragment does not count for how it ends. -/
theorem head_ne_of_final {role : Role} {f : Fragment} (grouped : Grouped role f)
    (place : role ≠ .below) (readable : f.Readable) (S : List Symbol) {s : Symbol}
    (other : ¬ IsFinal s) : (f.spelled ++ S).head? ≠ some s := by
  obtain ⟨t, first, final⟩ := exists_final grouped place readable
  rw [List.head?_append, first, Option.some_or]
  rintro ⟨⟩
  exact other final

theorem not_endsAndV {f : Fragment} (grouped : Grouped .single f) (readable : f.Readable)
    (S : List Symbol) : ¬ EndsAndV (f.spelled ++ S) := by
  obtain ⟨t, first, final⟩ := exists_final grouped (by simp) readable
  intro ends
  have listed := ends t (by simp [first])
  rcases listed with rfl | rfl | rfl | rfl | rfl <;> simp [IsFinal] at final

/-! ## Finding fragments -/

/-- The decoder that expects a fragment in the given place finds it, and goes on with the
fragment on its stack. -/
def Accepted (limit : Int) : Role → Fragment → Prop
  | .single, f => ∀ (S : List Symbol) (E : List Expectation) (F : List Checked) (result : Checked),
    (∀ m : Checked, m.fragment = f → Yields limit ⟨S, E, m :: F⟩ result) →
      Yields limit ⟨f.spelled ++ S, .fragment :: E, F⟩ result
  | .sequence, f => ∀ (S : List Symbol) (E : List Expectation) (F : List Checked)
    (result : Checked),
    (∀ m : Checked, m.fragment = f → Yields limit ⟨S, .maybeAndV :: E, m :: F⟩ result) →
      Yields limit ⟨f.spelled ++ S, .fragment :: .maybeAndV :: E, F⟩ result
  | .below, f => ∀ (S : List Symbol) (E : List Expectation) (F : List Checked) (result : Checked),
    (∀ m : Checked, m.fragment = f → Yields limit ⟨S, E, m :: F⟩ result) →
      Yields limit ⟨f.spelled ++ S, .below :: E, F⟩ result

/-- A sequence ends before a symbol that no fragment ends in. -/
theorem Yields.endAndV {s : Symbol} {S : List Symbol} {E : List Expectation} {F : List Checked}
    {result : Checked}
    (ends : s = .op .ifOp ∨ s = .op .notIf ∨ s = .op .elseOp ∨ s = .op .toAltStack ∨ s = .op .swap)
    (yields : Yields limit ⟨s :: S, E, F⟩ result) :
    Yields limit ⟨s :: S, .maybeAndV :: E, F⟩ result := by
  refine .step (.andVEnds fun t first => ?_) yields
  cases first
  exact ends

section Forms

variable {x y z : Fragment}

theorem accepted_leaf {l : Leaf} (makeable : Makeable limit (.leaf l)) :
    Accepted limit .single (.leaf l) := by
  intro S E F result goesOn
  obtain ⟨m, same⟩ := makeable.exists_checked
  have few := makeable.few l (by simp [Fragment.leaves])
  exact .step (.fragment (.leaf (Fragment.readable_leaf_iff.1 makeable.readable) few
    (Checked.leaf_eq_ok_iff.2 ⟨makeable.shallow, same⟩))) (goesOn m same)

/-- A wrapper around the fragment on the stack is closed. -/
theorem Makeable.closeWrap {w : Wrapper} (makeable : Makeable limit (.wrap w x)) {S : List Symbol}
    {E : List Expectation} {F : List Checked} {result : Checked}
    (goesOn : ∀ m : Checked, m.fragment = .wrap w x → Yields limit ⟨S, E, m :: F⟩ result)
    {mx : Checked} (same : mx.fragment = x) :
    Yields limit ⟨S, .wrap w :: E, mx :: F⟩ result := by
  subst same
  obtain ⟨m, same⟩ := makeable.exists_checked
  exact .step (.wrap (Checked.wrap_eq_ok_iff.2 ⟨makeable.shallow, same⟩)) (goesOn m same)

theorem Makeable.closePair {op : Combinator} (makeable : Makeable limit (.pair op x y))
    {S : List Symbol} {E : List Expectation} {F : List Checked} {result : Checked}
    (goesOn : ∀ m : Checked, m.fragment = .pair op x y → Yields limit ⟨S, E, m :: F⟩ result)
    {mx my : Checked} (sameX : mx.fragment = x) (sameY : my.fragment = y) :
    Yields limit ⟨S, .pair op :: E, mx :: my :: F⟩ result := by
  subst sameX sameY
  obtain ⟨m, same⟩ := makeable.exists_checked
  exact .step (.pair (Checked.pair_eq_ok_iff.2 ⟨makeable.shallow, same⟩)) (goesOn m same)

theorem accepted_dupIf (makeable : Makeable limit (.wrap .dupIf x))
    (body : Accepted limit .sequence x) : Accepted limit .single (.wrap .dupIf x) := by
  intro S E F result goesOn
  rw [Fragment.spelled_dupIf, List.cons_append, List.append_assoc]
  refine .step (.fragment .endIf) (body _ _ _ _ fun mx same => ?_)
  exact .endAndV (.inl rfl) (.step .dupIf (makeable.closeWrap goesOn same))

theorem accepted_nonZero (makeable : Makeable limit (.wrap .nonZero x))
    (body : Accepted limit .sequence x) : Accepted limit .single (.wrap .nonZero x) := by
  intro S E F result goesOn
  rw [Fragment.spelled_nonZero, List.cons_append, List.append_assoc]
  refine .step (.fragment .endIf) (body _ _ _ _ fun mx same => ?_)
  exact .endAndV (.inl rfl) (.step .nonZero (makeable.closeWrap goesOn same))

theorem accepted_andB (makeable : Makeable limit (.pair .andB x y))
    (left : Accepted limit .single x) (right : Accepted limit .below y) :
    Accepted limit .single (.pair .andB x y) := by
  intro S E F result goesOn
  rw [Fragment.spelled_andB, List.cons_append, List.append_assoc]
  refine .step (.fragment .andB) (right _ _ _ _ fun my sameY => left _ _ _ _ fun mx sameX => ?_)
  exact makeable.closePair goesOn sameX sameY

theorem accepted_orB (makeable : Makeable limit (.pair .orB x z))
    (left : Accepted limit .single x) (right : Accepted limit .below z) :
    Accepted limit .single (.pair .orB x z) := by
  intro S E F result goesOn
  rw [Fragment.spelled_orB, List.cons_append, List.append_assoc]
  refine .step (.fragment .orB) (right _ _ _ _ fun mz sameZ => left _ _ _ _ fun mx sameX => ?_)
  exact makeable.closePair goesOn sameX sameZ

theorem accepted_orD (makeable : Makeable limit (.pair .orD x z))
    (left : Accepted limit .single x) (right : Accepted limit .sequence z) :
    Accepted limit .single (.pair .orD x z) := by
  intro S E F result goesOn
  rw [Fragment.spelled_orD, List.cons_append, List.append_assoc]
  refine .step (.fragment .endIf) (right _ _ _ _ fun mz sameZ => ?_)
  refine .endAndV (.inr (.inl rfl)) (.step .notIf (.step .orD ?_))
  exact left _ _ _ _ fun mx sameX => makeable.closePair goesOn sameX sameZ

theorem accepted_orC (makeable : Makeable limit (.pair .orC x z))
    (left : Accepted limit .single x) (right : Accepted limit .sequence z)
    (other : ∀ S : List Symbol, (x.spelled ++ S).head? ≠ some (.op .ifDup)) :
    Accepted limit .single (.pair .orC x z) := by
  intro S E F result goesOn
  rw [Fragment.spelled_orC, List.cons_append, List.append_assoc]
  refine .step (.fragment .endIf) (right _ _ _ _ fun mz sameZ => ?_)
  refine .endAndV (.inr (.inl rfl)) (.step .notIf (.step (.orC (other S)) ?_))
  exact left _ _ _ _ fun mx sameX => makeable.closePair goesOn sameX sameZ

theorem accepted_orI (makeable : Makeable limit (.pair .orI x z))
    (left : Accepted limit .sequence x) (right : Accepted limit .sequence z) :
    Accepted limit .single (.pair .orI x z) := by
  intro S E F result goesOn
  rw [Fragment.spelled_orI, List.cons_append, List.append_assoc, List.cons_append,
    List.append_assoc]
  refine .step (.fragment .endIf) (right _ _ _ _ fun mz sameZ => ?_)
  refine .endAndV (.inr (.inr (.inl rfl))) (.step .elseBody (left _ _ _ _ fun mx sameX => ?_))
  subst sameX sameZ
  obtain ⟨m, same⟩ := makeable.exists_checked
  exact .endAndV (.inl rfl) (.step (.orI (Checked.pair_eq_ok_iff.2 ⟨makeable.shallow, same⟩))
    (goesOn m same))

theorem accepted_andor (makeable : Makeable limit (.andor x y z))
    (first : Accepted limit .single x) (second : Accepted limit .sequence y)
    (third : Accepted limit .sequence z) : Accepted limit .single (.andor x y z) := by
  intro S E F result goesOn
  rw [Fragment.spelled_andor, List.cons_append, List.append_assoc, List.cons_append,
    List.append_assoc]
  refine .step (.fragment .endIf) (second _ _ _ _ fun my sameY => ?_)
  refine .endAndV (.inr (.inr (.inl rfl))) (.step .elseBody (third _ _ _ _ fun mz sameZ => ?_))
  refine .endAndV (.inr (.inl rfl)) (.step .elseNotIf (first _ _ _ _ fun mx sameX => ?_))
  subst sameX sameY sameZ
  obtain ⟨m, same⟩ := makeable.exists_checked
  exact .step (.andor (Checked.andor_eq_ok_iff.2 ⟨makeable.shallow, same⟩)) (goesOn m same)

theorem accepted_alt (makeable : Makeable limit (.wrap .alt x))
    (body : Accepted limit .sequence x) : Accepted limit .below (.wrap .alt x) := by
  intro S E F result goesOn
  rw [Fragment.spelled_alt, List.cons_append, List.append_assoc]
  refine .step .belowAlt (body _ _ _ _ fun mx sameX => ?_)
  subst sameX
  obtain ⟨m, same⟩ := makeable.exists_checked
  exact .endAndV (by simp) (.step (.alt (Checked.wrap_eq_ok_iff.2 ⟨makeable.shallow, same⟩))
    (goesOn m same))

theorem accepted_swap (makeable : Makeable limit (.wrap .swap x))
    (body : Accepted limit .sequence x)
    (other : ∀ S : List Symbol, (x.spelled ++ S).head? ≠ some (.op .fromAltStack)) :
    Accepted limit .below (.wrap .swap x) := by
  intro S E F result goesOn
  rw [Fragment.spelled_swap, List.append_assoc]
  refine .step (.belowSwap (other _)) (body _ _ _ _ fun mx sameX => ?_)
  subst sameX
  obtain ⟨m, same⟩ := makeable.exists_checked
  exact .endAndV (by simp) (.step (.swap (Checked.wrap_eq_ok_iff.2 ⟨makeable.shallow, same⟩))
    (goesOn m same))

/-- The first part of a sequence is found after the second, which is on the stack. -/
theorem accepted_andV (makeable : Makeable limit (.pair .andV x y))
    (left : Accepted limit .single x) (right : Accepted limit .sequence y)
    (goes : ∀ S : List Symbol, ¬ EndsAndV (x.spelled ++ S)) :
    Accepted limit .sequence (.pair .andV x y) := by
  intro S E F result goesOn
  rw [Fragment.spelled_andV, List.append_assoc]
  refine right _ _ _ _ fun my sameY => ?_
  have found : Yields limit ⟨x.spelled ++ S, .fragment :: .andV :: E, my :: F⟩ result := by
    refine left _ _ _ _ fun mx sameX => ?_
    subst sameX sameY
    obtain ⟨m, same⟩ := makeable.exists_checked
    exact .step (.andV (Checked.pair_eq_ok_iff.2 ⟨makeable.shallow, same⟩)) (goesOn m same)
  -- Going on with a sequence begins a fragment just as expecting one does.
  obtain ⟨v, meets, yields⟩ := yields_cons_iff.1 found
  cases meets with
  | fragment begins => exact .step (.andVGoesOn (goes S) begins) yields

theorem accepted_check (makeable : Makeable limit (.wrap .check x))
    (body : Accepted limit .single x) : Accepted limit .single (.wrap .check x) := by
  intro S E F result goesOn
  rw [Fragment.spelled_check, List.cons_append]
  exact .step (.fragment .check) (body _ _ _ _ fun mx same => makeable.closeWrap goesOn same)

theorem accepted_zeroNotEqual (makeable : Makeable limit (.wrap .zeroNotEqual x))
    (body : Accepted limit .single x) : Accepted limit .single (.wrap .zeroNotEqual x) := by
  intro S E F result goesOn
  rw [Fragment.spelled_zeroNotEqual, List.cons_append]
  exact .step (.fragment .zeroNotEqual) (body _ _ _ _ fun mx same => makeable.closeWrap goesOn same)

/-! ## Thresholds -/

/-- The parts of a threshold are found from the last to the first. -/
theorem accepted_parts {k : Nat} {rest : List Fragment} (first : Accepted limit .single x)
    (others : ∀ y ∈ rest, Accepted limit .below y)
    (noAdd : ∀ S : List Symbol, (x.spelled ++ S).head? ≠ some (.op .add)) {n : Nat}
    {S : List Symbol} {E : List Expectation} {F : List Checked} {result : Checked}
    (goesOn : ∀ subs : List Checked, subs.map Checked.fragment = x :: rest →
      Yields limit ⟨S, .thresh k (n + subs.length) :: E, subs ++ F⟩ result) :
    Yields limit ⟨Fragment.spelledParts rest ++ (x.spelled ++ S), .moreSubs k n :: E, F⟩
      result := by
  induction rest using List.reverseRecOn generalizing n F with
  | nil =>
    refine .step (.firstSub (noAdd S)) (first _ _ _ _ fun mx same => ?_)
    exact goesOn [mx] (by rw [List.map_singleton, same])
  | append_singleton rest y ih =>
    rw [Fragment.spelledParts_concat, List.cons_append, List.append_assoc]
    refine .step .anotherSub (others y (by simp) _ _ _ _ fun my same => ?_)
    refine ih (fun z member => others z (by simp [member])) fun subs parts => ?_
    have more := goesOn (subs ++ [my]) (by simp [parts, same])
    rw [List.length_append, List.length_singleton, List.append_assoc] at more
    rwa [Nat.add_right_comm, Nat.add_assoc]

theorem accepted_thresh {k : Int} {rest : List Fragment}
    (makeable : Makeable limit (.thresh k (x :: rest))) (first : Accepted limit .single x)
    (others : ∀ y ∈ rest, Accepted limit .below y)
    (noAdd : ∀ S : List Symbol, (x.spelled ++ S).head? ≠ some (.op .add)) :
    Accepted limit .single (.thresh k (x :: rest)) := by
  intro S E F result goesOn
  obtain ⟨facts, typed⟩ := makeable.typed
  obtain ⟨fs, each, checked, _⟩ := Fragment.facts?_thresh_iff.1 typed
  have positive := (Facts.checkThreshold_iff.1 checked).1
  have small := (Fragment.readable_thresh.1 makeable.readable).2
  have threshold : (((UInt32.ofNat k.toNat).toNat : Nat) : Int) = k := by
    rw [UInt32.toNat_ofNat_of_lt' small]
    omega
  rw [Fragment.spelled_thresh, List.cons_append, List.cons_append, List.append_assoc]
  refine .step (.fragment .thresh) (accepted_parts first others noAdd fun subs parts => ?_)
  obtain ⟨m, same⟩ := makeable.exists_checked
  have made : Checked.thresh limit ((UInt32.ofNat k.toNat).toNat : Nat) subs = .ok m := by
    rw [threshold, Checked.thresh_eq_ok_iff, parts]
    exact ⟨makeable.shallow, same⟩
  rw [Nat.zero_add]
  exact .step (.thresh made) (goesOn m same)

/-! ## VERIFY -/

theorem hashLock_of_equal {l : Leaf} (readable : l.Readable)
    (equal : (Fragment.leaf l).spelled.head? = some (.op .equal)) :
    ∃ f image, l = .hashLock f image := by
  cases l with
  | zero => exact absurd equal (by decide)
  | one => exact absurd equal (by decide)
  | pk key =>
    obtain ⟨p, rfl⟩ := readable
    rw [spelled_pk] at equal
    cases equal
  | pkHash hash =>
    rw [spelled_pkHash] at equal
    cases equal
  | after n =>
    rw [spelled_after] at equal
    cases equal
  | older n =>
    rw [spelled_older] at equal
    cases equal
  | hashLock f image => exact ⟨f, image, rfl⟩
  | multi k keys =>
    obtain ⟨ps, rfl⟩ := exists_points readable.2.2
    rw [spelled_multi] at equal
    cases equal

/-- Only hash locks and thresholds end in EQUAL. -/
theorem hashLock_or_thresh_of_equal {f : Fragment} (grouped : Grouped .single f)
    (readable : f.Readable)
    (equal : f.spelled.head? = some (.op .equal)) :
    (∃ g image, f = .leaf (.hashLock g image)) ∨ ∃ k x rest, f = .thresh k (x :: rest) := by
  cases grouped with
  | leaf l =>
    obtain ⟨g, image, rfl⟩ := hashLock_of_equal (Fragment.readable_leaf_iff.1 readable) equal
    exact .inl ⟨g, image, rfl⟩
  | trail trails _ => rcases trails with rfl | rfl | rfl <;> simp at equal
  | thresh k _ _ => exact .inr ⟨k, _, _, rfl⟩
  | _ => simp at equal

/-- What begins as a threshold goes on as one. -/
theorem Begins.of_equal_number {k : UInt32} {S : List Symbol} {E : List Expectation}
    {F : List Checked} {v : View}
    (begins : Begins limit ⟨.op .equal :: .number k :: S, E, F⟩ v) :
    v = ⟨S, .moreSubs k.toNat 0 :: E, F⟩ := by
  generalize same : Symbol.op .equal :: .number k :: S = T at begins
  cases begins with
  | @leaf l _ _ _ _ readable _ _ =>
    exfalso
    obtain ⟨s, first, -⟩ := exists_final_leaf readable
    have equal : (Fragment.leaf l).spelled.head? = some (.op .equal) := by
      have heads := congrArg List.head? same
      rw [List.head?_cons, List.head?_append, first, Option.some_or] at heads
      rw [first, heads]
    obtain ⟨f, image, rfl⟩ := hashLock_of_equal readable equal
    rw [spelled_hashLock] at same
    cases f <;> simp [imageSymbol] at same
  | thresh =>
    cases same
    rfl
  | _ => cases same

theorem accepted_verify (makeable : Makeable limit (.wrap .verify x)) (grouped : Grouped .single x)
    (body : Accepted limit .single x) : Accepted limit .single (.wrap .verify x) := by
  intro S E F result goesOn
  rw [Fragment.spelled_verify, List.cons_append]
  have part := makeable.part (x := x) (by simp [Fragment.children])
  have close : ∀ mx : Checked, mx.fragment = x →
      Yields limit ⟨S, .wrap .verify :: E, mx :: F⟩ result :=
    fun mx same => makeable.closeWrap goesOn same
  have found := body S (.wrap .verify :: E) F result close
  by_cases equal : x.spelled.head? = some (.op .equal)
  · rcases hashLock_or_thresh_of_equal grouped part.readable equal with
      ⟨f, image, rfl⟩ | ⟨k, y, rest, rfl⟩
    · obtain ⟨mx, same⟩ := part.exists_checked
      exact .step (.fragment (.verifyHash (Checked.leaf_eq_ok_iff.2 ⟨part.shallow, same⟩)))
        (close mx same)
    · -- The threshold is found as it is without VERIFY, except for its first symbol.
      rw [Fragment.spelled_thresh, List.cons_append, List.cons_append] at found ⊢
      obtain ⟨v, meets, yields⟩ := yields_cons_iff.1 found
      cases meets with
      | fragment begins =>
        rw [begins.of_equal_number] at yields
        exact .step (.fragment .verifyThresh) yields
  · refine .step (.fragment (.verify ?_)) found
    obtain ⟨s, first, -⟩ := exists_final grouped (by simp) part.readable
    rwa [List.head?_append, first, Option.some_or, ← first]

end Forms

/-! ## All fragments -/

/-- A grouped fragment is found where it stands. -/
theorem accepted_of_grouped {role : Role} {f : Fragment} (grouped : Grouped role f)
    (makeable : Makeable limit f) : Accepted limit role f := by
  induction grouped with
  | leaf l => exact accepted_leaf makeable
  | trail trails single ih =>
    have body := ih (makeable.part (by simp [Fragment.children]))
    rcases trails with rfl | rfl | rfl
    · exact accepted_check makeable body
    · exact accepted_verify makeable single body
    · exact accepted_zeroNotEqual makeable body
  | dupIf _ ih => exact accepted_dupIf makeable (ih (makeable.part (by simp [Fragment.children])))
  | nonZero _ ih =>
    exact accepted_nonZero makeable (ih (makeable.part (by simp [Fragment.children])))
  | andB _ _ ihx ihy =>
    exact accepted_andB makeable (ihx (makeable.part (by simp [Fragment.children])))
      (ihy (makeable.part (by simp [Fragment.children])))
  | orB _ _ ihx ihz =>
    exact accepted_orB makeable (ihx (makeable.part (by simp [Fragment.children])))
      (ihz (makeable.part (by simp [Fragment.children])))
  | orD _ _ ihx ihz =>
    exact accepted_orD makeable (ihx (makeable.part (by simp [Fragment.children])))
      (ihz (makeable.part (by simp [Fragment.children])))
  | @orC x z single _ ihx ihz =>
    have first := makeable.part (x := x) (by simp [Fragment.children])
    exact accepted_orC makeable (ihx first) (ihz (makeable.part (by simp [Fragment.children])))
      fun S => head_ne_of_final single (by simp) first.readable S (by simp [IsFinal])
  | orI _ _ ihx ihz =>
    exact accepted_orI makeable (ihx (makeable.part (by simp [Fragment.children])))
      (ihz (makeable.part (by simp [Fragment.children])))
  | andor _ _ _ ihx ihy ihz =>
    exact accepted_andor makeable (ihx (makeable.part (by simp [Fragment.children])))
      (ihy (makeable.part (by simp [Fragment.children])))
      (ihz (makeable.part (by simp [Fragment.children])))
  | @thresh k x rest single _ ihx ihs =>
    have first := makeable.part (x := x) (by simp [Fragment.children])
    exact accepted_thresh makeable (ihx first)
      (fun y member => ihs y member (makeable.part (by simp [Fragment.children, member])))
      fun S => head_ne_of_final single (by simp) first.readable S (by simp [IsFinal])
  | @last x single ih =>
    intro S E F result goesOn
    exact ih makeable S (.maybeAndV :: E) F result goesOn
  | @andV x y single _ ihx ihy =>
    have first := makeable.part (x := x) (by simp [Fragment.children])
    exact accepted_andV makeable (ihx first) (ihy (makeable.part (by simp [Fragment.children])))
      (not_endsAndV single first.readable)
  | alt _ ih => exact accepted_alt makeable (ih (makeable.part (by simp [Fragment.children])))
  | @swap x sequence ih =>
    have body := makeable.part (x := x) (by simp [Fragment.children])
    exact accepted_swap makeable (ih body)
      fun S => head_ne_of_final sequence (by simp) body.readable S (by simp [IsFinal])

/-- A fragment with a script can be made in any grouping that keeps to the limit, if no `thresh_m`
has more keys than are allowed. -/
theorem makeable_of_regrouped {f g : Fragment} {facts : Facts Int64} {b : Bytes}
    (regrouped : Regrouped f g) (typed : f.facts? = .ok facts)
    (few : ∀ k keys, .multi k keys ∈ f.leaves → keys.length ≤ maxMultiKeys)
    (written : f.script = .ok b) (shallow : (g.depth : Int) ≤ limit) : Makeable limit g := by
  have fits := Fragment.fits_of_script typed written
  refine ⟨⟨facts, regrouped.facts? typed fits⟩, shallow, ?_, fun l member => ?_⟩
  · rw [Fragment.Readable, regrouped.words_eq]
    exact Fragment.readable_of_typed typed (Fragment.writable_of_script written)
  · rw [regrouped.leaves_eq] at member
    cases l with
    | multi k keys => exact few k keys member
    | _ => trivial

/-- The script of a fragment decodes to the grouping of the fragment that the script shows, if that
keeps to the limit. -/
theorem decode_of_regrouped {s : Settings} (readsPoints : s.decodeKey = Key.ofBytes)
    {m m' : Checked} {b : Bytes} (regrouped : Regrouped m.fragment m'.fragment)
    (grouped : Grouped .sequence m'.fragment)
    (few : ∀ k keys, .multi k keys ∈ m.fragment.leaves → keys.length ≤ maxMultiKeys)
    (written : m.fragment.script = .ok b) (shallow : (m'.fragment.depth : Int) ≤ s.limit) :
    decode s b = .ok m' := by
  have makeable := makeable_of_regrouped regrouped m.typed few written shallow
  have readable := Fragment.readable_of_typed m.typed (Fragment.writable_of_script written)
  obtain ⟨tokens, lexed, symbols⟩ := Fragment.lex_script readable written
  have spelled : tokens.map Token.symbol = m'.fragment.spelled := by
    rw [symbols, Fragment.spelled, Fragment.symbols, Fragment.symbols, regrouped.words_eq]
  refine (decode_eq_ok_iff readsPoints).2 ⟨tokens, lexed, ?_⟩
  rw [spelled, ← List.append_nil m'.fragment.spelled]
  refine accepted_of_grouped grouped makeable [] [] [] _ fun found same => ?_
  obtain rfl : found = m' := Checked.eq_of_fragment_eq same
  exact .step (.andVEnds fun s first => by cases first) (.done _)

/-- The script of a fragment decodes to the fragment in some grouping, with the same facts, if the
limit leaves room for the script. -/
theorem exists_decoded {s : Settings} (readsPoints : s.decodeKey = Key.ofBytes) {m : Checked}
    {b : Bytes} (base : m.type.corr.base ≠ .W)
    (few : ∀ k keys, .multi k keys ∈ m.fragment.leaves → keys.length ≤ maxMultiKeys)
    (written : m.fragment.script = .ok b) (room : 2 * (b.length : Int) ≤ s.limit) :
    ∃ m' : Checked, decode s b = .ok m' ∧ m'.facts = m.facts ∧
      Regrouped m.fragment m'.fragment := by
  obtain ⟨g, regrouped, fits⟩ := Fragment.exists_fits m.typed
  have shallow : (g.depth : Int) ≤ s.limit := by
    obtain ⟨known, rfl, -⟩ := Fragment.script_eq_ok_iff.1 written
    have depth := g.depth_le_length_words
    have length := Fragment.length_words_le known
    rw [regrouped.words_eq] at depth
    omega
  have typed := regrouped.facts? m.typed (Fragment.fits_of_script m.typed written)
  exact ⟨⟨g, m.facts, typed⟩,
    decode_of_regrouped readsPoints regrouped (fits.sequence base) few written shallow, rfl,
    regrouped⟩

/-- Encoding can be undone. The script of a fragment decodes to a fragment with the same script,
type and cost, which may differ in the grouping of sequences only, if the fragment does not work
below the top of the stack, no `thresh_m` has more keys than are allowed, and the limit leaves
room for the script. That all keys are known is not asked, as there would be no script. -/
theorem decode_undoes_script {s : Settings} (readsPoints : s.decodeKey = Key.ofBytes) {m : Checked}
    {b : Bytes} (base : m.type.corr.base ≠ .W)
    (few : ∀ k keys, .multi k keys ∈ m.fragment.leaves → keys.length ≤ maxMultiKeys)
    (written : m.fragment.script = .ok b) (room : 2 * (b.length : Int) ≤ s.limit) :
    ∃ m' : Checked, decode s b = .ok m' ∧ m'.fragment.script = .ok b ∧ m'.type = m.type ∧
      m'.cost = m.cost ∧ Regrouped m.fragment m'.fragment := by
  obtain ⟨m', decoded, same, regrouped⟩ := exists_decoded readsPoints base few written room
  have short := (Fragment.script_eq_ok_iff.1 written).2.2
  refine ⟨m', decoded, script_of_decode readsPoints short decoded, ?_, ?_, regrouped⟩
  · rw [Checked.type, same, Checked.type]
  · rw [Checked.cost, same, Checked.cost]

/-- `and_b(and_v(v:older(3),thresh_m(1,G)),a:n:and_v(v:after(2),1))`, in which both sequences
move. -/
def twoSequences : Checked where
  fragment := .pair .andB
    (.pair .andV (.wrap .verify (.leaf (.older 3))) (.leaf (.multi 1 [.point .generator])))
    (.wrap .alt (.wrap .zeroNotEqual (.pair .andV (.wrap .verify (.leaf (.after 2))) (.leaf .one))))
  facts := ⟨⟨⟨.B, .anyNonZero, false, true⟩, ⟨.unknown, true, true⟩⟩,
    ⟨.safe, 48, false, 9, some 10, none⟩⟩
  typed := by rfl

/-- The script of `twoSequences`. -/
def twoSequencesScript : Bytes :=
  [0x53, 0xB2, 0x69, 0x51, 0x21] ++ Point.generator.bytes
    ++ [0x51, 0xAE, 0x6B, 0x52, 0xB1, 0x69, 0x51, 0x92, 0x6C, 0x9A]

theorem decode_undoes_script_twoSequences :
    twoSequences.fragment.script = .ok twoSequencesScript ∧
    ∃ m' : Checked, decode {} twoSequencesScript = .ok m' ∧
      m'.fragment.script = .ok twoSequencesScript ∧ m'.type = twoSequences.type ∧
      m'.cost = twoSequences.cost ∧ Regrouped twoSequences.fragment m'.fragment := by
  have few : ∀ k keys, .multi k keys ∈ twoSequences.fragment.leaves →
      keys.length ≤ maxMultiKeys := by
    simp [twoSequences, Fragment.leaves, maxMultiKeys]
  exact ⟨rfl, decode_undoes_script rfl (by decide) few rfl (by decide)⟩

end Decoder

end LockScript
