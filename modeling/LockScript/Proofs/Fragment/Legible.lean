import LockScript.Fragment.Reader
import LockScript.Fragment.OfExpression
import LockScript.Proofs.Decoder.Soundness

/-!
Fragments whose text can be read.

The text of a fragment holds thresholds and keys, and not every one of these can be read back: a
threshold may be too large, a `thresh_m` too long, a key may be none that the reader knows. A
fragment is legible if none of this stands in the way. Whatever makes fragments, from text, from an
expression or from a script, makes legible ones only.
-/

namespace LockScript

/-! ## Legible fragments -/

/-- A leaf with numbers and keys that are read back from its text. -/
def Leaf.Legible (read : Key.Reader) : Leaf → Prop
  | .pk key => key.Legible read
  | .multi k keys => k < 2 ^ 31 ∧ keys.length ≤ maxMultiKeys ∧ ∀ key ∈ keys, key.Legible read
  | _ => True

/-- A fragment with thresholds and leaves that are read back from its text. -/
inductive Fragment.Legible (read : Key.Reader) : Fragment → Prop
  | leaf {l : Leaf} (own : l.Legible read) : Legible read (.leaf l)
  | wrap {w : Wrapper} {x : Fragment} (part : Legible read x) : Legible read (.wrap w x)
  | pair {op : Combinator} {x y : Fragment} (first : Legible read x) (second : Legible read y) :
    Legible read (.pair op x y)
  | andor {x y z : Fragment} (first : Legible read x) (second : Legible read y)
    (third : Legible read z) : Legible read (.andor x y z)
  | thresh {k : Int} {subs : List Fragment} (small : k < 2 ^ 31)
    (parts : ∀ x ∈ subs, Legible read x) : Legible read (.thresh k subs)

theorem Fragment.Legible.own {read : Key.Reader} {l : Leaf} (legible : Legible read (.leaf l)) :
    l.Legible read := by
  cases legible with
  | leaf own => exact own

theorem Fragment.Legible.part {read : Key.Reader} {f x : Fragment} (legible : f.Legible read)
    (child : x ∈ f.children) : x.Legible read := by
  cases legible with
  | leaf own => cases child
  | wrap part =>
    obtain rfl := List.mem_singleton.1 child
    exact part
  | pair first second =>
    rcases mem_children_pair.1 child with rfl | rfl
    · exact first
    · exact second
  | andor first second third =>
    rcases mem_children_andor.1 child with rfl | rfl | rfl
    · exact first
    · exact second
    · exact third
  | thresh small parts => exact parts x child

/-- A checked fragment that a reader with these settings can find in a text. -/
structure Checked.Legible (s : Settings) (m : Checked) : Prop where
  shallow : (m.fragment.depth : Int) ≤ s.limit
  legible : m.fragment.Legible s.readKey

theorem Checked.Legible.exists_part {s : Settings} {m : Checked} (legible : m.Legible s)
    {x : Fragment} (child : x ∈ m.fragment.children) :
    ∃ mx : Checked, mx.fragment = x ∧ mx.Legible s := by
  obtain ⟨facts, typed⟩ := Fragment.exists_facts?_of_child m.typed child
  have shallow := legible.shallow
  have deeper := Fragment.depth_lt_of_child child
  exact ⟨⟨x, facts, typed⟩, rfl, by dsimp only; omega, legible.legible.part child⟩

theorem located_eq_ok_iff {α : Type} {offset : Nat} {made : Except Error α} {a : α} :
    located offset made = .ok a ↔ made = .ok a := by
  cases made <;> simp [located]

variable {s : Settings} {m x y z : Checked}

namespace Checked.Legible

theorem leaf {l : Leaf} (made : Checked.leaf s.limit l = .ok m) (own : l.Legible s.readKey) :
    m.Legible s := by
  obtain ⟨shallow, same⟩ := Checked.leaf_eq_ok_iff.1 made
  constructor
  · rw [same]
    exact shallow
  · rw [same]
    exact .leaf own

theorem wrap {w : Wrapper} (made : Checked.wrap s.limit w x = .ok m) (part : x.Legible s) :
    m.Legible s := by
  obtain ⟨shallow, same⟩ := Checked.wrap_eq_ok_iff.1 made
  constructor
  · rw [same]
    exact shallow
  · rw [same]
    exact .wrap part.legible

theorem pair {op : Combinator} (made : Checked.pair s.limit op x y = .ok m)
    (first : x.Legible s) (second : y.Legible s) : m.Legible s := by
  obtain ⟨shallow, same⟩ := Checked.pair_eq_ok_iff.1 made
  constructor
  · rw [same]
    exact shallow
  · rw [same]
    exact .pair first.legible second.legible

theorem andor (made : Checked.andor s.limit x y z = .ok m) (first : x.Legible s)
    (second : y.Legible s) (third : z.Legible s) : m.Legible s := by
  obtain ⟨shallow, same⟩ := Checked.andor_eq_ok_iff.1 made
  constructor
  · rw [same]
    exact shallow
  · rw [same]
    exact .andor first.legible second.legible third.legible

theorem thresh {k : Int} {subs : List Checked} (made : Checked.thresh s.limit k subs = .ok m)
    (small : k < 2 ^ 31) (parts : ∀ x ∈ subs, x.Legible s) : m.Legible s := by
  obtain ⟨shallow, same⟩ := Checked.thresh_eq_ok_iff.1 made
  constructor
  · rw [same]
    exact shallow
  · rw [same]
    refine .thresh small fun f member => ?_
    obtain ⟨x, inside, rfl⟩ := List.mem_map.1 member
    exact (parts x inside).legible

end Checked.Legible

/-! ## Building -/

theorem legible_of_applyLetter {l : Letter} {letterOffset offset : Nat}
    (made : applyLetter s.limit l letterOffset offset x = .ok m) (part : x.Legible s) :
    m.Legible s := by
  cases l with
  | wrapper w => exact .wrap (located_eq_ok_iff.1 made) part
  | thenOne =>
    obtain ⟨one, leaf, made⟩ := bind_eq_ok_iff.1 made
    have added := Checked.Legible.leaf (located_eq_ok_iff.1 leaf) trivial
    exact .pair (located_eq_ok_iff.1 made) part added
  | orZero =>
    obtain ⟨zero, leaf, made⟩ := bind_eq_ok_iff.1 made
    have added := Checked.Legible.leaf (located_eq_ok_iff.1 leaf) trivial
    exact .pair (located_eq_ok_iff.1 made) part added
  | zeroOr =>
    obtain ⟨zero, leaf, made⟩ := bind_eq_ok_iff.1 made
    have added := Checked.Legible.leaf (located_eq_ok_iff.1 leaf) trivial
    exact .pair (located_eq_ok_iff.1 made) added part

theorem legible_of_applyLetters {offset index : Nat} {letters : Bytes}
    (made : applyLetters s.limit offset index letters x = .ok m) (part : x.Legible s) :
    m.Legible s := by
  induction letters generalizing index m with
  | nil =>
    cases made
    exact part
  | cons b rest ih =>
    obtain ⟨inner, wrapped, made⟩ := bind_eq_ok_iff.1 made
    have legible := ih wrapped
    split at made
    · cases made
    · exact legible_of_applyLetter made legible

section Arguments

variable (standard : s.readKey.Standard)
include standard

theorem legible_of_key {text : Bytes} {place : Nat} {k : Key}
    (found : Arg.key s text place = .ok k) : k.Legible s.readKey := by
  unfold Arg.key at found
  split at found
  · next read =>
    cases found
    exact Key.legible_of_read standard read
  · cases found

theorem legible_of_keys {args : List Arg} {keys : List Key} (found : Arg.keys s args = .ok keys) :
    keys.length ≤ args.length ∧ ∀ key ∈ keys, key.Legible s.readKey := by
  induction args generalizing keys with
  | nil =>
    cases found
    exact ⟨Nat.le_refl _, fun key member => nomatch member⟩
  | cons arg rest ih =>
    cases arg with
    | word text place =>
      obtain ⟨k, first, found⟩ := bind_eq_ok_iff.1 found
      obtain ⟨ks, others, found⟩ := bind_eq_ok_iff.1 found
      cases found
      obtain ⟨length, legible⟩ := ih others
      exact ⟨Nat.succ_le_succ length,
        List.forall_mem_cons.2 ⟨legible_of_key standard first, legible⟩⟩
    | fragment x =>
      obtain ⟨length, legible⟩ := ih found
      exact ⟨Nat.le_succ_of_le length, legible⟩

end Arguments

theorem lt_of_threshold {text : Bytes} {place : Nat} {k : Int}
    (found : Arg.threshold text place = .ok k) : k < 2 ^ 31 := by
  unfold Arg.threshold at found
  split at found
  · next n read =>
    cases found
    have small := Decimal.below?_lt read
    omega
  · cases found

theorem mem_of_mem_fragments {args : List Arg} (member : x ∈ Arg.fragments args) :
    Arg.fragment x ∈ args := by
  induction args with
  | nil => cases member
  | cons arg rest ih =>
    cases arg with
    | word text place => exact List.mem_cons_of_mem _ (ih member)
    | fragment y =>
      rcases List.mem_cons.1 member with rfl | later
      · exact List.mem_cons_self
      · exact List.mem_cons_of_mem _ (ih later)

/-- A fragment is built from legible parts to be legible. -/
theorem legible_of_build (standard : s.readKey.Standard) {head : Head} {name : Bytes} {offset : Nat}
    {args : List Arg} (parts : ∀ x, .fragment x ∈ args → Checked.Legible s x)
    (made : build s head name offset args = .ok m) : m.Legible s := by
  cases head with
  | zero =>
    simp only [build] at made
    split at made
    · exact .leaf (located_eq_ok_iff.1 made) trivial
    · cases made
  | one =>
    simp only [build] at made
    split at made
    · exact .leaf (located_eq_ok_iff.1 made) trivial
    · cases made
  | pk =>
    simp only [build] at made
    split at made
    · obtain ⟨k, found, made⟩ := bind_eq_ok_iff.1 made
      exact .leaf (located_eq_ok_iff.1 made) (legible_of_key standard found)
    · cases made
  | pkHash =>
    simp only [build] at made
    split at made
    · obtain ⟨hash, -, made⟩ := bind_eq_ok_iff.1 made
      exact .leaf (located_eq_ok_iff.1 made) trivial
    · cases made
  | after =>
    simp only [build] at made
    split at made
    · obtain ⟨lock, -, made⟩ := bind_eq_ok_iff.1 made
      exact .leaf (located_eq_ok_iff.1 made) trivial
    · cases made
  | older =>
    simp only [build] at made
    split at made
    · obtain ⟨lock, -, made⟩ := bind_eq_ok_iff.1 made
      exact .leaf (located_eq_ok_iff.1 made) trivial
    · cases made
  | hashLock f =>
    simp only [build] at made
    split at made
    · obtain ⟨image, -, made⟩ := bind_eq_ok_iff.1 made
      exact .leaf (located_eq_ok_iff.1 made) trivial
    · cases made
  | pair op =>
    simp only [build] at made
    split at made
    · split at made
      · cases made
      · exact .pair (located_eq_ok_iff.1 made) (parts _ (by simp)) (parts _ (by simp))
    · cases made
  | andN =>
    simp only [build] at made
    split at made
    · obtain ⟨zero, leaf, made⟩ := bind_eq_ok_iff.1 made
      have added := Checked.Legible.leaf (located_eq_ok_iff.1 leaf) trivial
      exact .andor (located_eq_ok_iff.1 made) (parts _ (by simp)) (parts _ (by simp)) added
    · cases made
  | andor =>
    simp only [build] at made
    split at made
    · exact .andor (located_eq_ok_iff.1 made) (parts _ (by simp)) (parts _ (by simp))
        (parts _ (by simp))
    · cases made
  | thresh =>
    simp only [build] at made
    split at made
    · obtain ⟨k, read, made⟩ := bind_eq_ok_iff.1 made
      refine .thresh (located_eq_ok_iff.1 made) (lt_of_threshold read) fun x member => ?_
      exact parts x (List.mem_cons_of_mem _ (mem_of_mem_fragments member))
    · cases made
  | multi =>
    simp only [build] at made
    split at made
    · split at made
      · cases made
      · next few =>
        obtain ⟨k, read, made⟩ := bind_eq_ok_iff.1 made
        obtain ⟨keys, found, made⟩ := bind_eq_ok_iff.1 made
        obtain ⟨length, legible⟩ := legible_of_keys standard found
        exact .leaf (located_eq_ok_iff.1 made)
          ⟨lt_of_threshold read, length.trans (Nat.not_lt.1 few), legible⟩
    · cases made
  | letter l =>
    simp only [build] at made
    split at made
    · exact legible_of_applyLetter made (parts _ (by simp))
    · cases made

/-! ## Reading text -/

namespace Fragment

theorem legible_of_readArgs {readOne : ArgKind → Cursor → Except Error (Arg × Cursor)}
    (each : ∀ kind c x after, readOne kind c = .ok (.fragment x, after) → x.Legible s)
    {name : Bytes} {shape : Shape} {bound index : Nat} {c last : Cursor} {args : List Arg}
    (found : readArgs readOne name shape bound index c = .ok (args, last)) :
    ∀ x, .fragment x ∈ args → Checked.Legible s x := by
  induction bound generalizing index c args last with
  | zero => cases found
  | succ bound ih =>
    unfold readArgs at found
    split at found
    · cases found
    · obtain ⟨⟨arg, after⟩, first, found⟩ := bind_eq_ok_iff.1 found
      have legible : ∀ x, arg = .fragment x → x.Legible s := by
        rintro x rfl
        exact each _ _ _ _ first
      dsimp only at found
      split at found
      · cases found
      · split at found
        · cases found
          intro x member
          exact legible x (List.mem_singleton.1 member).symm
        · split at found
          · obtain ⟨⟨others, stop⟩, later, found⟩ := bind_eq_ok_iff.1 found
            cases found
            intro x member
            rcases List.mem_cons.1 member with same | member
            · exact legible x same.symm
            · exact ih later x member
          · cases found

/-- One argument, read with at most `levels` levels of nesting. -/
def readArg (s : Settings) (levels : Nat) (kind : ArgKind) (c : Cursor) :
    Except Error (Arg × Cursor) :=
  match kind with
  | .word => readWord c
  | .fragment => (readOne s levels c).map fun (m, after) => (.fragment m, after)

/-- The arguments of a name, if it is followed by an opening parenthesis. -/
def readArguments (s : Settings) (levels : Nat) (name : Bytes) (shape : Shape) (c : Cursor) :
    Except Error (List Arg × Cursor) :=
  if c.peek? = some (byte '(') then
    readArgs (readArg s levels) name shape (c.rest.length + 1) 0 c.next
  else .ok ([], c)

theorem readOne_of_opening {levels : Nat} {c after : Cursor} {opening : Opening} {head : Head}
    (opened : readOpening c = .ok (opening, after))
    (named : Head.ofName? opening.name = some head) :
    readOne s (levels + 1) c = (do
      let (args, last) ← readArguments s levels opening.name head.shape after
      let core ← build s head opening.name opening.nameOffset args
      let m ← applyLetters s.limit c.offset 0 opening.letters core
      .ok (m, last)) := by
  rw [readOne, opened, readArguments]
  simp only [bind, Except.bind, named]
  split
  · rfl
  · rfl

/-- What one fragment is read from: its letters and name, the arguments, and nothing else. -/
theorem readOne_eq_ok_iff {levels : Nat} {c last : Cursor} :
    readOne s (levels + 1) c = .ok (m, last) ↔ ∃ opening after head args core,
      readOpening c = .ok (opening, after) ∧ Head.ofName? opening.name = some head ∧
      readArguments s levels opening.name head.shape after = .ok (args, last) ∧
      build s head opening.name opening.nameOffset args = .ok core ∧
      applyLetters s.limit c.offset 0 opening.letters core = .ok m := by
  rw [readOne]
  constructor
  · intro found
    obtain ⟨⟨opening, after⟩, opened, found⟩ := bind_eq_ok_iff.1 found
    dsimp only at found
    split at found
    · cases found
    · next head named =>
      refine ⟨opening, after, head, ?_⟩
      split at found
      · next parenthesis =>
        obtain ⟨⟨args, stop⟩, read, found⟩ := bind_eq_ok_iff.1 found
        obtain ⟨core, built, found⟩ := bind_eq_ok_iff.1 found
        obtain ⟨wrapped, letters, ⟨⟩⟩ := bind_eq_ok_iff.1 found
        exact ⟨args, core, opened, named, (if_pos parenthesis).trans read, built, letters⟩
      · next parenthesis =>
        obtain ⟨⟨args, stop⟩, read, found⟩ := bind_eq_ok_iff.1 found
        obtain ⟨core, built, found⟩ := bind_eq_ok_iff.1 found
        obtain ⟨wrapped, letters, ⟨⟩⟩ := bind_eq_ok_iff.1 found
        exact ⟨args, core, opened, named, (if_neg parenthesis).trans read, built, letters⟩
  · rintro ⟨opening, after, head, args, core, opened, named, read, built, letters⟩
    have finished : (do
        let core ← build s head opening.name opening.nameOffset args
        let wrapped ← applyLetters s.limit c.offset 0 opening.letters core
        .ok (wrapped, last)) = Except.ok (m, last) :=
      bind_eq_ok_iff.2 ⟨core, built, bind_eq_ok_iff.2 ⟨m, letters, rfl⟩⟩
    refine bind_eq_ok_iff.2 ⟨_, opened, ?_⟩
    unfold readArguments at read
    simp only [named]
    split at read
    · next parenthesis =>
      rw [if_pos parenthesis]
      exact bind_eq_ok_iff.2 ⟨_, read, finished⟩
    · next parenthesis =>
      rw [if_neg parenthesis]
      exact bind_eq_ok_iff.2 ⟨_, read, finished⟩

theorem legible_of_readOne (standard : s.readKey.Standard) {levels : Nat} {c last : Cursor}
    (found : readOne s levels c = .ok (m, last)) : m.Legible s := by
  induction levels generalizing c last m with
  | zero => cases found
  | succ levels ih =>
    obtain ⟨opening, after, head, args, core, -, -, read, built, letters⟩ :=
      readOne_eq_ok_iff.1 found
    have parts : ∀ x, .fragment x ∈ args → Checked.Legible s x := by
      unfold readArguments at read
      split at read
      · refine legible_of_readArgs (fun kind c x after one => ?_) read
        cases kind with
        | word =>
          simp only [readArg, readWord] at one
          split at one
          · cases one
          · split at one <;> cases one
        | fragment =>
          obtain ⟨⟨y, stop⟩, first, ⟨⟩⟩ := map_eq_ok_iff.1 one
          exact ih first
      · cases read
        intro x member
        cases member
    exact legible_of_applyLetters letters (legible_of_build standard parts built)

/-- A fragment that was read is legible. -/
theorem legible_of_read (standard : s.readKey.Standard) {text : Bytes}
    (found : read s text = .ok m) : m.Legible s := by
  obtain ⟨⟨one, after⟩, first, found⟩ := bind_eq_ok_iff.1 found
  dsimp only at found
  split at found
  · cases found
    exact legible_of_readOne standard first
  · cases found

/-! ## Reading expressions -/

mutual

theorem legible_of_ofExpressionAt (standard : s.readKey.Standard) (e : Expression) {depth : Nat}
    {m : Checked} (found : ofExpressionAt s depth e = .ok m) : m.Legible s := by
  obtain ⟨name, offset, args⟩ := e
  unfold ofExpressionAt at found
  split at found
  · cases found
  · obtain ⟨⟨letters, name, nameOffset⟩, -, found⟩ := bind_eq_ok_iff.1 found
    dsimp only at found
    split at found
    · cases found
    · split at found
      · cases found
      · obtain ⟨made, read, found⟩ := bind_eq_ok_iff.1 found
        obtain ⟨core, built, letters⟩ := bind_eq_ok_iff.1 found
        have parts := legible_of_argsOf standard args read
        exact legible_of_applyLetters letters (legible_of_build standard parts built)

theorem legible_of_argsOf (standard : s.readKey.Standard) (es : List Expression) {depth : Nat}
    {shape : Shape} {index : Nat} {args : List Arg}
    (found : argsOf s depth shape index es = .ok args) :
    ∀ x, .fragment x ∈ args → Checked.Legible s x := by
  match es with
  | [] =>
    cases found
    intro x member
    cases member
  | e :: rest =>
    unfold argsOf at found
    split at found
    · obtain ⟨first, made, found⟩ := bind_eq_ok_iff.1 found
      obtain ⟨others, later, ⟨⟩⟩ := bind_eq_ok_iff.1 found
      obtain ⟨y, read, rfl⟩ := map_eq_ok_iff.1 made
      intro x member
      rcases List.mem_cons.1 member with same | member
      · cases same
        exact legible_of_ofExpressionAt standard e read
      · exact legible_of_argsOf standard rest later x member
    · split at found
      · obtain ⟨first, ⟨⟩, found⟩ := bind_eq_ok_iff.1 found
        obtain ⟨others, later, ⟨⟩⟩ := bind_eq_ok_iff.1 found
        intro x member
        rcases List.mem_cons.1 member with same | member
        · cases same
        · exact legible_of_argsOf standard rest later x member
      · cases found

end

/-! ## Reading scripts -/

theorem length_words_lt_of_child {f x : Fragment} {n : Nat} (child : x ∈ f.children)
    (short : f.words.length < n) : x.words.length < n :=
  Nat.lt_of_le_of_lt (words_sublist child).length_le short

/-- A fragment from a script that is not out of all proportion has no thresholds too large to read,
since they are smaller than the script. -/
theorem legible_of_makeable {read : Key.Reader} (points : ∀ p, (Key.point p).Legible read)
    {limit : Int} {f : Fragment} (makeable : Decoder.Makeable limit f)
    (short : f.words.length < 2 ^ 32) : f.Legible read := by
  induction f with
  | leaf l =>
    have readable := readable_leaf_iff.1 makeable.readable
    obtain ⟨facts, typed⟩ := makeable.typed
    refine .leaf ?_
    cases l with
    | pk key =>
      obtain ⟨p, rfl⟩ := readable
      exact points p
    | multi k keys =>
      have threshold := Facts.checkThreshold_iff.1 (facts?_leaf_iff.1 typed).1
      have few : keys.length ≤ maxMultiKeys := makeable.few (.multi k keys) (by simp [leaves])
      have bound : maxMultiKeys = 20 := rfl
      refine ⟨by omega, few, fun key member => ?_⟩
      obtain ⟨p, rfl⟩ := readable.2.2 key member
      exact points p
    | _ => trivial
  | wrap w x ih =>
    have child : x ∈ (wrap w x).children := by simp [children]
    exact .wrap (ih (makeable.part child) (length_words_lt_of_child child short))
  | pair op x y ihx ihy =>
    have first : x ∈ (pair op x y).children := by simp [children]
    have second : y ∈ (pair op x y).children := by simp [children]
    exact .pair (ihx (makeable.part first) (length_words_lt_of_child first short))
      (ihy (makeable.part second) (length_words_lt_of_child second short))
  | andor x y z ihx ihy ihz =>
    have first : x ∈ (andor x y z).children := by simp [children]
    have second : y ∈ (andor x y z).children := by simp [children]
    have third : z ∈ (andor x y z).children := by simp [children]
    exact .andor (ihx (makeable.part first) (length_words_lt_of_child first short))
      (ihy (makeable.part second) (length_words_lt_of_child second short))
      (ihz (makeable.part third) (length_words_lt_of_child third short))
  | thresh k subs ih =>
    obtain ⟨facts, typed⟩ := makeable.typed
    obtain ⟨fs, each, checked, _⟩ := facts?_thresh_iff.1 typed
    have threshold := Facts.checkThreshold_iff.1 checked
    have same := each.length_eq
    have parts := length_sumWords true subs
    refine .thresh ?_ fun x member => ?_
    · simp only [words_thresh, List.length_append, List.length_cons, Bool.toNat_true] at short parts
      omega
    · have child : x ∈ (thresh k subs).children := member
      exact ih x member (makeable.part child) (length_words_lt_of_child child short)

/-- A fragment that was decoded from a script below 2³¹ bytes is legible to a reader of points. -/
theorem legible_of_decode {script : Bytes} (points : ∀ p, (Key.point p).Legible s.readKey)
    (readsPoints : s.decodeKey = Key.ofBytes) (short : script.length < 2 ^ 31)
    (found : Decoder.decode s script = .ok m) : m.Legible s := by
  obtain ⟨makeable, rfl⟩ := Decoder.bytes_of_decode readsPoints found
  have words := length_words_le makeable.known
  exact ⟨makeable.shallow, legible_of_makeable points makeable (by omega)⟩

end Fragment

end LockScript
