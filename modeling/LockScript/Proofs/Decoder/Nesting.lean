import LockScript.Fragment.Sanity
import LockScript.Proofs.Decoder.Completeness
import LockScript.Proofs.Fragment.Grouping
import LockScript.Proofs.Fragment.RoundTrip

/-!
Which scripts of fragments the decoder accepts.

With a limit that leaves room for the script the decoder finds a fragment in its script up to the
grouping of sequences. A limit on the nesting applies to the grouping that the decoder finds, which
may be far deeper than the one that was written. More room does not change what is found
(`Yields.mono`), so the script is accepted exactly if the grouped form of the fragment keeps to the
limit (`decode_eq_ok_iff_grouped`). The default limit leaves room for every fragment that keeps to
the limit on operations (`grouped_shallow_of_ops`), but not for every fragment that is read.
-/

namespace LockScript.Decoder

/-! ## More room -/

section Room

variable {limit limit' : Int}

theorem Begins.mono (room : limit ≤ limit') {v v' : View} (begins : Begins limit v v') :
    Begins limit' v v' := by
  cases begins with
  | leaf readable few made =>
    obtain ⟨shallow, same⟩ := Checked.leaf_eq_ok_iff.1 made
    exact .leaf readable few (Checked.leaf_eq_ok_iff.2 ⟨shallow.trans room, same⟩)
  | verifyHash made =>
    obtain ⟨shallow, same⟩ := Checked.leaf_eq_ok_iff.1 made
    exact .verifyHash (Checked.leaf_eq_ok_iff.2 ⟨shallow.trans room, same⟩)
  | check => exact .check
  | zeroNotEqual => exact .zeroNotEqual
  | verify other => exact .verify other
  | thresh => exact .thresh
  | verifyThresh => exact .verifyThresh
  | endIf => exact .endIf
  | andB => exact .andB
  | orB => exact .orB

theorem wrap_mono (room : limit ≤ limit') {w : Wrapper} {x m : Checked}
    (made : Checked.wrap limit w x = .ok m) : Checked.wrap limit' w x = .ok m := by
  obtain ⟨shallow, same⟩ := Checked.wrap_eq_ok_iff.1 made
  exact Checked.wrap_eq_ok_iff.2 ⟨shallow.trans room, same⟩

theorem pair_mono (room : limit ≤ limit') {op : Combinator} {x y m : Checked}
    (made : Checked.pair limit op x y = .ok m) : Checked.pair limit' op x y = .ok m := by
  obtain ⟨shallow, same⟩ := Checked.pair_eq_ok_iff.1 made
  exact Checked.pair_eq_ok_iff.2 ⟨shallow.trans room, same⟩

theorem Meets.mono (room : limit ≤ limit') {e : Expectation} {v v' : View}
    (meets : Meets limit e v v') : Meets limit' e v v' := by
  cases meets with
  | fragment begins => exact .fragment (begins.mono room)
  | andVGoesOn goesOn begins => exact .andVGoesOn goesOn (begins.mono room)
  | swap made => exact .swap (wrap_mono room made)
  | alt made => exact .alt (wrap_mono room made)
  | wrap made => exact .wrap (wrap_mono room made)
  | pair made => exact .pair (pair_mono room made)
  | andV made => exact .andV (pair_mono room made)
  | orI made => exact .orI (pair_mono room made)
  | andor made =>
    obtain ⟨shallow, same⟩ := Checked.andor_eq_ok_iff.1 made
    exact .andor (Checked.andor_eq_ok_iff.2 ⟨shallow.trans room, same⟩)
  | thresh made =>
    obtain ⟨shallow, same⟩ := Checked.thresh_eq_ok_iff.1 made
    exact .thresh (Checked.thresh_eq_ok_iff.2 ⟨shallow.trans room, same⟩)
  | belowAlt => exact .belowAlt
  | belowSwap other => exact .belowSwap other
  | noSwap other => exact .noSwap other
  | andVEnds ends => exact .andVEnds ends
  | anotherSub => exact .anotherSub
  | firstSub other => exact .firstSub other
  | elseBody => exact .elseBody
  | dupIf => exact .dupIf
  | nonZero => exact .nonZero
  | notIf => exact .notIf
  | orD => exact .orD
  | orC other => exact .orC other
  | elseNotIf => exact .elseNotIf

/-- What the rules yield within a limit they yield within every larger one. -/
theorem Yields.mono (room : limit ≤ limit') {v : View} {m : Checked} (yields : Yields limit v m) :
    Yields limit' v m := by
  induction yields with
  | done m => exact .done m
  | step meets _ ih => exact .step (meets.mono room) ih

/-- A script that decodes within a limit decodes to the same within every larger one. -/
theorem decode_mono {s s' : Settings} (readsPoints : s.decodeKey = Key.ofBytes)
    (readsPoints' : s'.decodeKey = Key.ofBytes) (room : s.limit ≤ s'.limit) {b : Bytes}
    {m : Checked} (decoded : decode s b = .ok m) : decode s' b = .ok m := by
  obtain ⟨tokens, lexed, yields⟩ := (decode_eq_ok_iff readsPoints).1 decoded
  exact (decode_eq_ok_iff readsPoints').2 ⟨tokens, lexed, yields.mono room⟩

end Room

/-! ## The limit applies to the grouped form -/

section Limit

variable {s : Settings} {m m' : Checked} {b : Bytes}

/-- The script of a fragment decodes to its grouped form, if that keeps to the limit. -/
theorem decode_of_shallow (readsPoints : s.decodeKey = Key.ofBytes) (base : m.type.corr.base ≠ .W)
    (few : ∀ k keys, .multi k keys ∈ m.fragment.leaves → keys.length ≤ maxMultiKeys)
    (written : m.fragment.script = .ok b) (shallow : (m.fragment.grouped.depth : Int) ≤ s.limit)
    (same : m'.fragment = m.fragment.grouped) : decode s b = .ok m' := by
  obtain ⟨regrouped, fits⟩ := Fragment.fits_grouped m.typed
  rw [← same] at regrouped fits shallow
  exact decode_of_regrouped readsPoints regrouped (fits.sequence base) few written shallow

/-- The script of a fragment decodes to the grouped form of the fragment, and it does so exactly if
the grouped form keeps to the limit. -/
theorem decode_eq_ok_iff_grouped (readsPoints : s.decodeKey = Key.ofBytes)
    (base : m.type.corr.base ≠ .W)
    (few : ∀ k keys, .multi k keys ∈ m.fragment.leaves → keys.length ≤ maxMultiKeys)
    (written : m.fragment.script = .ok b) :
    decode s b = .ok m' ↔
      m'.fragment = m.fragment.grouped ∧ (m.fragment.grouped.depth : Int) ≤ s.limit := by
  constructor
  · intro decoded
    -- With enough room the grouped form is found, and less room finds nothing else.
    obtain ⟨regrouped, -⟩ := Fragment.fits_grouped m.typed
    have fits := Fragment.fits_of_script m.typed written
    let grouped : Checked := ⟨m.fragment.grouped, m.facts, regrouped.facts? m.typed fits⟩
    let wide : Settings := { s with limit := max s.limit grouped.fragment.depth }
    have readsPoints' : wide.decodeKey = Key.ofBytes := readsPoints
    have found : decode wide b = .ok grouped :=
      decode_of_shallow readsPoints' base few written (Int.le_max_right _ _) rfl
    have found' : decode wide b = .ok m' :=
      decode_mono readsPoints readsPoints' (Int.le_max_left _ _) decoded
    rw [found] at found'
    obtain rfl := Except.ok.inj found'
    exact ⟨rfl, (bytes_of_decode readsPoints decoded).1.shallow⟩
  · intro ⟨same, shallow⟩
    exact decode_of_shallow readsPoints base few written shallow same

end Limit

/-! ## Fragments that are read -/

/-- The leaves of a legible fragment are legible. -/
theorem legible_of_mem_leaves {read : Key.Reader} {f : Fragment} (legible : f.Legible read) :
    ∀ l ∈ f.leaves, l.Legible read := by
  induction legible with
  | leaf own =>
    intro l member
    obtain rfl := List.mem_singleton.1 member
    exact own
  | wrap _ ih => exact ih
  | pair _ _ ihx ihy =>
    intro l member
    rcases List.mem_append.1 member with first | second
    · exact ihx l first
    · exact ihy l second
  | andor _ _ _ ihx ihy ihz =>
    intro l member
    rcases List.mem_append.1 member with either | third
    · rcases List.mem_append.1 either with first | second
      · exact ihx l first
      · exact ihy l second
    · exact ihz l third
  | thresh _ _ ih =>
    intro l member
    rw [Fragment.leaves, Fragment.leavesOf_eq_flatMap] at member
    obtain ⟨x, child, leaf⟩ := List.mem_flatMap.1 member
    exact ih x child l leaf

theorem few_of_legible {read : Key.Reader} {f : Fragment} (legible : f.Legible read) (k : Int)
    (keys : List Key) (member : .multi k keys ∈ f.leaves) : keys.length ≤ maxMultiKeys :=
  (legible_of_mem_leaves legible _ member).2.1

/-- The limit on operations keeps the grouped form of what has a script within the default limit on
the nesting. -/
theorem grouped_shallow_of_ops {m : Checked} {b : Bytes} (written : m.fragment.script = .ok b)
    (few : m.opCount ≤ Sanity.maxOps) : (m.fragment.grouped.depth : Int) ≤ defaultLimit := by
  have cost : m.cost = m.fragment.cost Int64 := Fragment.cost_of_facts? m.typed
  have fits := Fragment.fits_of_script m.typed written
  have least : (m.fragment.cost Int).staticOps ≤ m.opCount := by
    rw [← fits.staticOps, Checked.opCount, cost]
    cases run : (m.fragment.cost Int64).satOps with
    | none => exact Int.le_refl _
    | some n => exact fits.covered.sat n run
  have deep : 3 * (m.fragment.grouped.depth : Int) ≤ 5 * (m.fragment.cost Int).staticOps + 7 :=
    Fragment.three_mul_depth_grouped_le (Fragment.exact_of_facts? m.typed)
  have ops : (m.fragment.cost Int).staticOps ≤ 201 := least.trans few
  rw [defaultLimit]
  omega

/-- The script of a fragment that was read with the default settings decodes to the grouped form
of the fragment or not at all, and it does decode exactly if the grouped form keeps to the limit on
the nesting. It does so whenever the fragment keeps to the limit on operations. -/
theorem decode_script_of_read {text : Bytes} {m : Checked} {b : Bytes}
    (found : Fragment.read {} text = .ok m) (base : m.type.corr.base ≠ .W)
    (written : m.fragment.script = .ok b) :
    (∀ m' : Checked, decode {} b = .ok m' → m'.fragment = m.fragment.grouped ∧ m'.type = m.type ∧
      m'.cost = m.cost) ∧
    ((∃ m', decode {} b = .ok m') ↔ (m.fragment.grouped.depth : Int) ≤ defaultLimit) ∧
    (m.opCount ≤ Sanity.maxOps → ∃ m', decode {} b = .ok m') := by
  have legible := (Fragment.legible_of_read .text found).legible
  have few := few_of_legible legible
  have decodes (m' : Checked) : decode {} b = .ok m' ↔
      m'.fragment = m.fragment.grouped ∧ (m.fragment.grouped.depth : Int) ≤ defaultLimit :=
    decode_eq_ok_iff_grouped rfl base few written
  have typed := (Fragment.fits_grouped m.typed).1.facts? m.typed
    (Fragment.fits_of_script m.typed written)
  have accepted (shallow : (m.fragment.grouped.depth : Int) ≤ defaultLimit) :
      ∃ m', decode {} b = .ok m' :=
    ⟨⟨m.fragment.grouped, m.facts, typed⟩, (decodes _).2 ⟨rfl, shallow⟩⟩
  refine ⟨fun m' decoded => ?_, ⟨fun ⟨m', decoded⟩ => ((decodes m').1 decoded).2, accepted⟩,
    fun ops => accepted (grouped_shallow_of_ops written ops)⟩
  obtain ⟨same, -⟩ := (decodes m').1 decoded
  obtain rfl : m' = ⟨m.fragment.grouped, m.facts, typed⟩ := Checked.eq_of_fragment_eq same
  exact ⟨rfl, rfl, rfl⟩

theorem decode_script_of_read_twoSequences :
    Fragment.read {} twoSequences.text = .ok twoSequences ∧
    twoSequences.fragment.script = .ok twoSequencesScript ∧
    ∃ m', decode {} twoSequencesScript = .ok m' ∧
      m'.fragment = twoSequences.fragment.grouped := by
  have key := Key.legible_point (Key.ofText_text Point.generator)
  have legible : twoSequences.Legible {} := by
    refine ⟨by decide, .pair (.pair (.wrap (.leaf trivial)) (.leaf ⟨by decide, by decide, ?_⟩))
      (.wrap (.wrap (.pair (.wrap (.leaf trivial)) (.leaf trivial))))⟩
    intro k member
    obtain rfl := List.mem_singleton.1 member
    exact key
  have found := Fragment.read_text legible
  obtain ⟨grouped, -, accepted⟩ :=
    decode_script_of_read found (by decide) (b := twoSequencesScript) rfl
  obtain ⟨m', decoded⟩ := accepted (by decide)
  exact ⟨found, rfl, m', decoded, (grouped m' decoded).1⟩

/-- What follows a sequence that is split in the middle again and again ends up below all of it. -/
theorem le_depth_grouped_doubled (n : Nat) (y : Fragment) :
    2 ^ n + y.depth ≤
      (Fragment.atEnd (.pair .andV · y) (Fragment.verifiedOne.doubled n).grouped).depth := by
  induction n generalizing y with
  | zero =>
    have deeper : y.depth < (Fragment.pair .andV .verifiedOne y).depth :=
      Fragment.depth_lt_of_child (by simp [Fragment.children])
    have same : Fragment.atEnd (.pair .andV · y) (Fragment.verifiedOne.doubled 0).grouped =
        .pair .andV .verifiedOne y := rfl
    rw [same]
    omega
  | succ n ih =>
    have same : (Fragment.verifiedOne.doubled (n + 1)).grouped =
        Fragment.atEnd (.pair .andV · (Fragment.verifiedOne.doubled n).grouped)
          (Fragment.verifiedOne.doubled n).grouped := rfl
    have inner := ih y
    have outer := ih (Fragment.atEnd (.pair .andV · y) (Fragment.verifiedOne.doubled n).grouped)
    rw [same, Fragment.atEnd_andV]
    omega

/-- `older(1)` after 512 times `v:1`: 12 levels as it is written, 514 with the sequence nested to
the right. -/
def evenSequence : Fragment := .pair .andV (Fragment.verifiedOne.doubled 9) (.leaf (.older 1))

theorem legible_doubled (read : Key.Reader) (n : Nat) :
    (Fragment.verifiedOne.doubled n).Legible read := by
  induction n with
  | zero => exact .wrap (.leaf trivial)
  | succ n ih => exact .pair ih ih

theorem decode_evenSequence :
    ∃ (m : Checked) (b : Bytes), m.fragment = evenSequence ∧ Fragment.read {} m.text = .ok m ∧
      m.type.corr.base = .B ∧ m.fragment.script = .ok b ∧ ∀ m', decode {} b ≠ .ok m' := by
  have typed : evenSequence.facts?.toOption.map (fun facts : Facts Int64 => facts.type.corr.base) =
      some .B := by
    decide +kernel
  have encoded : evenSequence.script.isOk = true := by decide +kernel
  cases facts : (evenSequence.facts? : Except Fragment.TypeError (Facts Int64)) with
  | error e =>
    rw [facts] at typed
    cases typed
  | ok found =>
    cases written : evenSequence.script with
    | error e =>
      rw [written] at encoded
      cases encoded
    | ok b =>
      rw [facts] at typed
      have base : found.type.corr.base = .B := Option.some.inj typed
      have legible : evenSequence.Legible Key.ofText := .pair (legible_doubled _ 9) (.leaf trivial)
      have few := few_of_legible legible
      have shallow : (evenSequence.depth : Int) ≤ defaultLimit := by decide
      let m : Checked := ⟨evenSequence, found, facts⟩
      have notBelow : m.type.corr.base ≠ .W := by
        intro below
        cases base.symm.trans below
      have read := Fragment.read_text (m := m) (s := {}) ⟨shallow, legible⟩
      refine ⟨m, b, rfl, read, base, written, fun m' decoded => ?_⟩
      have within : (evenSequence.grouped.depth : Int) ≤ 402 :=
        ((decode_eq_ok_iff_grouped (m := m) rfl notBelow few written).1 decoded).2
      have deep := le_depth_grouped_doubled 9 (.leaf (.older 1))
      have same : Fragment.atEnd (.pair .andV · (.leaf (.older 1)))
          (Fragment.verifiedOne.doubled 9).grouped = evenSequence.grouped := rfl
      rw [same] at deep
      omega

end LockScript.Decoder
