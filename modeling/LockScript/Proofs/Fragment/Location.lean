import LockScript.Proofs.Decoder.Balance
import LockScript.Proofs.Fragment.Expression

/-!
Where errors are.

Whatever is wrong with a text or a script is found at an offset between its start and its end, and
is of a known kind. A check has no place of its own; the readers put its errors down to the place of
the name or token they stand at (`regular_located`), and all these places come from cursors that keep
the length of the text, or from tokens that stand within the script.

No name or letter stands for more than four operations, and every other operation of a fragment is one
of its arguments, which have bytes of their own. So a fragment that was read has at most four
operations for each of its bytes (`Fragment.regular_readOne`).
-/

namespace LockScript

/-! ## Building -/

namespace Arg

/-- A word that stands within an input of the given size, or a fragment. -/
def Inside (size : Nat) : Arg → Prop
  | .word _ place => place ≤ size
  | .fragment _ => True

/-- The operations that an argument brings in: a word may be a key of a CHECKMULTISIG, and a fragment
a part of a threshold. -/
def ops : Arg → Int
  | .word _ _ => 1
  | .fragment m => m.fragment.allOps + 1

/-- The operations that several arguments bring in. -/
def opsOf : List Arg → Int
  | [] => 0
  | arg :: rest => arg.ops + opsOf rest

theorem ops_pos (arg : Arg) : 1 ≤ arg.ops := by
  cases arg with
  | word text place => exact Int.le_refl 1
  | fragment m =>
    have nonneg := m.fragment.allOps_nonneg
    rw [ops]
    omega

theorem length_le_opsOf (args : List Arg) : (args.length : Int) ≤ opsOf args := by
  induction args with
  | nil => exact Int.le_refl 0
  | cons arg rest ih =>
    have one := arg.ops_pos
    rw [opsOf, List.length_cons]
    omega

/-- The fragments among arguments, and an operation for each. -/
theorem opsOf_fragments_le (args : List Arg) :
    Fragment.opsOf ((fragments args).map Checked.fragment) + (fragments args).length
      ≤ opsOf args := by
  induction args with
  | nil => exact Int.le_refl 0
  | cons arg rest ih =>
    cases arg with
    | word text place =>
      rw [fragments, opsOf, ops]
      omega
    | fragment m =>
      rw [fragments, opsOf, ops, List.map_cons, Fragment.opsOf, List.length_cons]
      omega

end Arg

section Building

variable {s : Settings} {size offset place : Nat} {text : Bytes}

theorem regular_lockTime (inside : place ≤ size) :
    Regular size (fun _ => True) (Arg.lockTime text place) := by
  unfold Arg.lockTime
  split
  · trivial
  · exact regular_textError _ inside

theorem regular_threshold (inside : place ≤ size) :
    Regular size (fun _ => True) (Arg.threshold text place) := by
  unfold Arg.threshold
  split
  · trivial
  · exact regular_textError _ inside

theorem regular_digest (width : Nat) (inside : place ≤ size) :
    Regular size (fun _ => True) (Arg.digest width text place) := by
  unfold Arg.digest
  split
  · exact regular_textError _ inside
  · split
    · exact regular_textError _ inside
    · trivial

theorem regular_key (inside : place ≤ size) :
    Regular size (fun _ => True) (Arg.key s text place) := by
  unfold Arg.key
  split
  · trivial
  · exact regular_textError _ inside

theorem regular_keyHash (inside : place ≤ size) :
    Regular size (fun _ => True) (Arg.keyHash s text place) := by
  unfold Arg.keyHash
  split
  · trivial
  · exact (regular_key inside).map fun _ _ => trivial

theorem regular_keys {args : List Arg} (inside : ∀ arg ∈ args, arg.Inside size) :
    Regular size (fun keys => keys.length ≤ args.length) (Arg.keys s args) := by
  induction args with
  | nil => exact Nat.le_refl 0
  | cons arg rest ih =>
    obtain ⟨first, others⟩ := List.forall_mem_cons.1 inside
    cases arg with
    | word text place =>
      refine (regular_key first).bind fun k _ => ?_
      exact (ih others).bind fun ks few => Nat.succ_le_succ few
    | fragment x => exact (ih others).imp fun ks few => Nat.le_succ_of_le few

theorem regular_applyLetter (limit : Int) (l : Letter) {letterOffset : Nat}
    (letterInside : letterOffset ≤ size) (inside : offset ≤ size) {m : Checked}
    (room : m.fragment.allOps + 4 ≤ 4 * size) :
    Regular size (fun made => made.fragment.allOps ≤ m.fragment.allOps + 4)
      (applyLetter limit l letterOffset offset m) := by
  have nonneg := m.fragment.allOps_nonneg
  -- A shorthand adds a `0` or a `1`, and then puts the two together.
  have added (leaf : Leaf) (none : (Fragment.leaf leaf).allOps = 0) {f : Checked → Composition}
      (few : ∀ x : Checked, x.fragment = .leaf leaf →
        (f x).fragment.allOps ≤ m.fragment.allOps + 4) :
      Regular size (fun made => made.fragment.allOps ≤ m.fragment.allOps + 4)
        (located letterOffset (Checked.leaf limit leaf) >>= fun x =>
          located offset ((f x).check limit)) := by
    refine (regular_located limit (.leaf leaf) letterInside (by rw [Composition.fragment]; omega)).bind
      fun x same => ?_
    have most := few x same
    refine (regular_located limit (f x) inside (by omega)).imp fun made same => ?_
    rw [same]
    exact most
  have sum (op : Combinator) : (op.ops : Int) ≤ 4 := by
    cases op <;> decide
  cases l with
  | wrapper w =>
    have most := (Fragment.allOps_wrap w m.fragment).2
    have four : (w.ops : Int) ≤ 4 := by
      cases w <;> decide
    refine (regular_located limit (.wrap w m) inside (by rw [Composition.fragment]; omega)).imp
      fun made same => ?_
    rw [same, Composition.fragment]
    omega
  | thenOne =>
    have four := sum .andV
    refine added .one rfl (f := fun x => .pair .andV m x) fun x same => ?_
    have one : x.fragment.allOps = 0 := by rw [same]; rfl
    rw [Composition.fragment, Fragment.allOps_pair]
    omega
  | orZero =>
    have four := sum .orI
    refine added .zero rfl (f := fun x => .pair .orI m x) fun x same => ?_
    have zero : x.fragment.allOps = 0 := by rw [same]; rfl
    rw [Composition.fragment, Fragment.allOps_pair]
    omega
  | zeroOr =>
    have four := sum .orI
    refine added .zero rfl (f := fun x => .pair .orI x m) fun x same => ?_
    have zero : x.fragment.allOps = 0 := by rw [same]; rfl
    rw [Composition.fragment, Fragment.allOps_pair]
    omega

theorem regular_applyLetters (limit : Int) {index : Nat} {letters : Bytes}
    (inside : offset + index + letters.length ≤ size) {m : Checked}
    (room : m.fragment.allOps + 4 * letters.length ≤ 4 * size) :
    Regular size (fun made => made.fragment.allOps ≤ m.fragment.allOps + 4 * letters.length)
      (applyLetters limit offset index letters m) := by
  induction letters generalizing index with
  | nil =>
    rw [List.length_nil] at room ⊢
    exact (by omega : m.fragment.allOps ≤ m.fragment.allOps + 4 * (0 : Nat))
  | cons b rest ih =>
    rw [List.length_cons] at inside room ⊢
    refine (ih (by omega) (by omega)).bind fun inner most => ?_
    split
    · exact regular_textError _ (by omega)
    · next l _ =>
      refine (regular_applyLetter limit l (by omega) (by omega) (m := inner) (by omega)).imp
        fun made more => ?_
      omega

/-- What is built has the operations of its arguments, and at most four of its own. -/
theorem regular_build (head : Head) (name : Bytes) (inside : offset ≤ size) {args : List Arg}
    (words : ∀ arg ∈ args, arg.Inside size) (room : Arg.opsOf args + 4 ≤ 4 * size) :
    Regular size (fun made => made.fragment.allOps ≤ Arg.opsOf args + 4)
      (build s head name offset args) := by
  -- Whichever name it is, its arguments may be wrong.
  have wrong : Regular size (fun made : Checked => made.fragment.allOps ≤ Arg.opsOf args + 4)
      (textError (.wrongArguments name args.length) offset) := regular_textError _ inside
  have made (t : Composition) (few : t.fragment.allOps ≤ Arg.opsOf args + 4) :
      Regular size (fun made => made.fragment.allOps ≤ Arg.opsOf args + 4)
        (located offset (t.check s.limit)) := by
    refine (regular_located s.limit t inside (by omega)).imp fun m same => ?_
    rw [same]
    exact few
  have some := Arg.length_le_opsOf args
  have leaf (l : Leaf) (few : (Fragment.leaf l).allOps ≤ 4) :=
    made (.leaf l) (by rw [Composition.fragment]; omega)
  cases head with
  | zero =>
    simp only [build]
    split
    · exact leaf .zero (by decide)
    · exact wrong
  | one =>
    simp only [build]
    split
    · exact leaf .one (by decide)
    · exact wrong
  | pk =>
    simp only [build]
    split
    · refine (regular_key (words _ List.mem_cons_self)).bind fun k _ => leaf (.pk k) ?_
      exact (by decide : (0 : Int) ≤ 4)
    · exact wrong
  | pkHash =>
    simp only [build]
    split
    · refine (regular_keyHash (words _ List.mem_cons_self)).bind fun hash _ =>
        leaf (.pkHash hash) ?_
      exact (by decide : (3 : Int) ≤ 4)
    · exact wrong
  | after =>
    simp only [build]
    split
    · refine (regular_lockTime (words _ List.mem_cons_self)).bind fun lock _ =>
        leaf (.after lock) ?_
      exact (by decide : (1 : Int) ≤ 4)
    · exact wrong
  | older =>
    simp only [build]
    split
    · refine (regular_lockTime (words _ List.mem_cons_self)).bind fun lock _ =>
        leaf (.older lock) ?_
      exact (by decide : (1 : Int) ≤ 4)
    · exact wrong
  | hashLock f =>
    simp only [build]
    split
    · refine (regular_digest f.width (words _ List.mem_cons_self)).bind fun image _ =>
        leaf (.hashLock f image) ?_
      exact Int.le_refl 4
    · exact wrong
  | pair op =>
    simp only [build]
    split
    · next x y =>
      split
      · exact regular_textError _ inside
      · have four : (op.ops : Int) ≤ 4 := by
          cases op <;> decide
        refine made (.pair op x y) ?_
        simp only [Composition.fragment, Fragment.allOps_pair, Arg.opsOf, Arg.ops]
        omega
    · exact wrong
  | andN =>
    simp only [build]
    split
    · next x y =>
      refine (regular_located s.limit (.leaf .zero) inside ?_).bind fun zero same => ?_
      · exact (by omega : (0 : Int) ≤ 4 * size)
      · have none : zero.fragment.allOps = 0 := by rw [same]; rfl
        refine made (.andor x y zero) ?_
        simp only [Composition.fragment, Fragment.allOps_andor, Arg.opsOf, Arg.ops]
        omega
    · exact wrong
  | andor =>
    simp only [build]
    split
    · next x y z =>
      refine made (.andor x y z) ?_
      simp only [Composition.fragment, Fragment.allOps_andor, Arg.opsOf, Arg.ops]
      omega
    · exact wrong
  | thresh =>
    simp only [build]
    split
    · next text place sub subs =>
      have parts := Arg.opsOf_fragments_le (sub :: subs)
      refine (regular_threshold (words _ List.mem_cons_self)).bind fun k _ => made (.thresh k _) ?_
      rw [Composition.fragment, Fragment.allOps_thresh, List.length_map, Arg.opsOf, Arg.ops]
      omega
    · exact wrong
  | multi =>
    simp only [build]
    split
    · next text place word rest =>
      split
      · exact regular_textError _ inside
      · refine (regular_threshold (words _ List.mem_cons_self)).bind fun k _ => ?_
        refine (regular_keys (List.forall_mem_cons.1 words).2).bind fun keys few => ?_
        refine made (.leaf (.multi k keys)) ?_
        have each := Arg.length_le_opsOf (word :: rest)
        rw [Composition.fragment, Fragment.allOps_multi, Arg.opsOf, Arg.ops]
        omega
    · exact wrong
  | letter l =>
    simp only [build]
    split
    · next x =>
      simp only [Arg.opsOf, Arg.ops] at room ⊢
      refine (regular_applyLetter s.limit l inside inside (by omega)).imp fun made more => ?_
      omega
    · exact wrong

end Building

/-! ## Reading text -/

namespace Fragment

variable {s : Settings} {size : Nat} {c : Cursor}

theorem offset_le_of_total (whole : c.total = size) : c.offset ≤ size :=
  (Nat.le_add_right _ _).trans_eq whole

/-- Letters and a name that stand within a text of the given size, with the text after them. -/
structure OpenedInside (size : Nat) (c : Cursor) (opening : Opening) (after : Cursor) : Prop where
  lettered : c.offset + opening.letters.length + 1 ≤ after.offset
  named : opening.nameOffset ≤ size
  rest : after.total = size

theorem offset_next {b : UInt8} (here : c.peek? = some b) : c.next.offset = c.offset + 1 := by
  obtain ⟨offset, rest⟩ := c
  cases rest with
  | nil => cases here
  | cons b rest => rfl

theorem regular_readOpening (whole : c.total = size) :
    Regular size (fun taken => OpenedInside size c taken.1 taken.2) (readOpening c) := by
  have start : (c.upTo fun b => !isNameByte b).2.total = size := (c.total_upTo _).trans whole
  have next : ((c.upTo fun b => !isNameByte b).2.next.upTo fun b => !isNameByte b).2.total = size :=
    (Cursor.total_upTo _ _).trans ((Cursor.total_next _).trans start)
  -- Whether there are letters or not, the name has to be there and ends the opening.
  have named (letters name : Bytes) (after : Cursor)
      (lettered : c.offset + letters.length + name.length ≤ after.offset)
      (rest : after.total = size) :
      Regular size (fun taken => OpenedInside size c taken.1 taken.2)
        (if name = [] then unexpectedAt after .fragmentName
        else .ok (⟨letters, name, after.offset - name.length⟩, after)) := by
    split
    · exact regular_textError _ (offset_le_of_total rest)
    · next solid =>
      have some := List.length_pos_iff.2 solid
      exact ⟨by dsimp only; omega, (Nat.sub_le _ _).trans (offset_le_of_total rest), rest⟩
  unfold readOpening
  dsimp only
  split
  · next colon =>
    have further := offset_next colon
    split
    · exact regular_textError _ (offset_le_of_total next)
    · split
      · exact regular_textError _ (offset_le_of_total whole)
      · refine named _ _ _ ?_ next
        simp only [Cursor.upTo] at further ⊢
        omega
  · exact named [] _ _ (Nat.le_refl _) start

/-- An argument that stands within the text, with at most four operations for each of its bytes and
one more, and the text after it. -/
structure ReadArg (size : Nat) (c : Cursor) (arg : Arg) (after : Cursor) : Prop where
  inside : arg.Inside size
  few : arg.ops + 4 * c.offset ≤ 4 * after.offset + 1
  rest : after.total = size

theorem regular_readWord (whole : c.total = size) :
    Regular size (fun taken => ReadArg size c taken.1 taken.2) (readWord c) := by
  have after : (c.upTo Expression.isPunctuation).2.total = size := (c.total_upTo _).trans whole
  simp only [readWord]
  split
  · exact regular_textError _ (offset_le_of_total after)
  · split
    · exact regular_textError _ (offset_le_of_total after)
    · refine ⟨offset_le_of_total whole, ?_, after⟩
      simp only [Arg.ops, Cursor.upTo]
      omega

/-- Every argument has a byte of punctuation after it, which makes up for the one operation more. -/
theorem regular_readArgs {readOne : ArgKind → Cursor → Except Error (Arg × Cursor)}
    (each : ∀ kind c, c.total = size →
      Regular size (fun taken => ReadArg size c taken.1 taken.2) (readOne kind c))
    (name : Bytes) (shape : Shape) (bound index : Nat) (whole : c.total = size) :
    Regular size (fun taken => (∀ arg ∈ taken.1, arg.Inside size) ∧
        Arg.opsOf taken.1 + 4 * c.offset ≤ 4 * taken.2.offset ∧ taken.2.total = size)
      (readArgs readOne name shape bound index c) := by
  induction bound generalizing index c with
  | zero => exact regular_textError _ (offset_le_of_total whole)
  | succ bound ih =>
    unfold readArgs
    split
    · exact regular_textError _ (offset_le_of_total whole)
    · next kind _ =>
      refine (each kind c whole).bind fun taken good => ?_
      obtain ⟨inside, few, after⟩ := good
      have beyond : taken.2.next.total = size := (Cursor.total_next _).trans after
      dsimp only
      split
      · exact regular_textError _ (offset_le_of_total after)
      · next b here =>
        have further := offset_next here
        split
        · refine ⟨by simpa using inside, ?_, beyond⟩
          simp only [Arg.opsOf]
          omega
        · split
          · refine (ih (index + 1) beyond).bind fun others good => ?_
            obtain ⟨insides, fews, last⟩ := good
            refine ⟨List.forall_mem_cons.2 ⟨inside, insides⟩, ?_, last⟩
            simp only [Arg.opsOf]
            omega
          · exact regular_textError _ (offset_le_of_total after)

/-- A fragment has at most four operations for each byte that it was read from. The induction is on
the levels of nesting: the arguments of a name are read with one less. -/
theorem regular_readOne (levels : Nat) (whole : c.total = size) :
    Regular size (fun taken : Checked × Cursor =>
      taken.1.fragment.allOps + 4 * c.offset ≤ 4 * taken.2.offset ∧ taken.2.total = size)
      (readOne s levels c) := by
  induction levels generalizing c with
  | zero =>
    exact .at (offset_le_of_total whole) rfl id
  | succ levels ih =>
    have each (kind : ArgKind) (c : Cursor) (whole : c.total = size) :
        Regular size (fun taken => ReadArg size c taken.1 taken.2) (readArg s levels kind c) := by
      cases kind with
      | word => exact regular_readWord whole
      | fragment =>
        refine (ih whole).map fun taken good => ?_
        obtain ⟨m, after⟩ := taken
        obtain ⟨few, last⟩ := good
        refine ⟨trivial, ?_, last⟩
        dsimp only [Arg.ops] at few ⊢
        omega
    have opens := regular_readOpening whole
    cases opened : readOpening c with
    | error e =>
      rw [opened] at opens
      rw [readOne, opened]
      exact opens
    | ok taken =>
      obtain ⟨opening, after⟩ := taken
      rw [opened] at opens
      obtain ⟨lettered, named, rest⟩ := opens
      dsimp only at lettered rest
      cases known : Head.ofName? opening.name with
      | none =>
        rw [readOne, opened]
        simp only [bind, Except.bind, known]
        exact regular_textError _ named
      | some head =>
        have arguments : Regular size (fun taken => (∀ arg ∈ taken.1, arg.Inside size) ∧
            Arg.opsOf taken.1 + 4 * after.offset ≤ 4 * taken.2.offset ∧ taken.2.total = size)
            (readArguments s levels opening.name head.shape after) := by
          unfold readArguments
          split
          · next parenthesis =>
            have further := offset_next parenthesis
            refine (regular_readArgs each _ _ _ _ ((Cursor.total_next _).trans rest)).imp
              fun taken good => ?_
            obtain ⟨inside, few, last⟩ := good
            refine ⟨inside, ?_, last⟩
            omega
          · refine ⟨by simp, ?_, rest⟩
            simp only [Arg.opsOf]
            omega
        rw [readOne_of_opening opened known]
        refine arguments.bind fun taken good => ?_
        obtain ⟨inside, few, last⟩ := good
        have ends := offset_le_of_total last
        refine (regular_build head opening.name named inside (by omega)).bind fun core most => ?_
        have begins := offset_le_of_total rest
        refine (regular_applyLetters s.limit (by omega) (by omega)).bind fun m more => ⟨?_, last⟩
        dsimp only
        omega

theorem regular_read (s : Settings) (text : Bytes) :
    Regular text.length (fun _ => True) (read s text) := by
  refine (regular_readOne s.limit.toNat (Cursor.total_start text)).bind fun taken good => ?_
  obtain ⟨-, last⟩ := good
  dsimp only
  split
  · trivial
  · exact regular_textError _ (offset_le_of_total last)

end Fragment

/-- Whatever is wrong with a text or a script is found at an offset from its start to its end. It is
of a known kind, unless the input is long beyond measure: then there may be so many operations that a
check breaks off. -/
theorem failure_placed {s : Settings} {input : Bytes} {e : Error}
    (failed : Fragment.read s input = .error e ∨ Decoder.decode s input = .error e) :
    (∃ offset, e.offset = some offset ∧ offset ≤ input.length) ∧
      (input.length < 0x2000000000000000 → ∃ kind, e.cause.kind? = some kind) := by
  have regular : e.Regular input.length := by
    rcases failed with failed | failed
    · have regular := Fragment.regular_read s input
      rw [failed] at regular
      exact regular
    · have regular := Decoder.regular_decode s input
      rw [failed] at regular
      exact regular
  exact ⟨regular.place, regular.kind⟩

/-- A text that breaks off within the arguments of a name. -/
def brokenOffText : Bytes := utf8 "and_v(v:1,"

/-- A script that breaks off before the key whose signature it checks. -/
def keylessScript : Bytes := [0x00, 0xac]

theorem failure_placed_brokenOff :
    (∃ e, Fragment.read {} brokenOffText = .error e ∧
      (∃ offset, e.offset = some offset ∧ offset ≤ brokenOffText.length) ∧
      ∃ kind, e.cause.kind? = some kind) ∧
    ∃ e, Decoder.decode {} keylessScript = .error e ∧
      (∃ offset, e.offset = some offset ∧ offset ≤ keylessScript.length) ∧
      ∃ kind, e.cause.kind? = some kind := by
  have text : (Fragment.read {} brokenOffText).isOk = false := by decide +kernel
  have script : (Decoder.decode {} keylessScript).isOk = false := by decide +kernel
  constructor
  · cases failed : Fragment.read {} brokenOffText with
    | ok m =>
      rw [failed] at text
      cases text
    | error e =>
      obtain ⟨place, kind⟩ := failure_placed (.inl failed)
      exact ⟨e, rfl, place, kind (by decide +kernel)⟩
  · cases failed : Decoder.decode {} keylessScript with
    | ok m =>
      rw [failed] at script
      cases script
    | error e =>
      obtain ⟨place, kind⟩ := failure_placed (.inr failed)
      exact ⟨e, rfl, place, kind (by decide)⟩

end LockScript
